import KiteNdn.Encoding.Tlv

/-!
# Reading numbers

The encoder takes the shortest of the four forms of a VAR-NUMBER, the readers take every form that
can hold the number. Each reader has versions for general iterators and for contiguous memory, and
versions that throw and that do not.
-/

namespace KiteNdn.Tlv

open Framework List Except

variable {number : Nat} {octets rest : List UInt8}

section Forms

/-- The forms of a VAR-NUMBER: one octet, or a marker before two, four or eight octets. -/
inductive Form where
  | short
  | two
  | four
  | eight
  deriving DecidableEq, Repr

namespace Form

variable {f : Form}

def width : Form → Nat
  | short => 0
  | two => 2
  | four => 4
  | eight => 8

def marker : Form → UInt8
  | short => 0
  | two => 253
  | four => 254
  | eight => 255

def size (f : Form) : Nat := 1 + f.width

def Fits (f : Form) (number : Nat) : Prop :=
  if f = short then number < 253 else number < 256^f.width

instance (f : Form) (number : Nat) : Decidable (f.Fits number) :=
  inferInstanceAs (Decidable (if f = short then number < 253 else number < 256^f.width))

def write (f : Form) (number : Nat) : List UInt8 :=
  if f = short then [UInt8.ofNat number] else f.marker :: toBytes f.width number

def shortest (number : Nat) : Form :=
  if number < 253 then short
  else if number ≤ 0xFFFF then two
  else if number ≤ 0xFFFFFFFF then four
  else eight

theorem length_write (f : Form) (number : Nat) : (f.write number).length = f.size := by
  cases f <;> simp [write,size,width,length_toBytes]

theorem fits_shortest (h : number < 2^64) : (shortest number).Fits number := by
  unfold shortest
  split_ifs <;> simp only [Fits,width,reduceCtorEq,if_true,if_false] <;> omega

theorem Fits.lt (h : f.Fits number) : number < 2^64 := by
  cases f <;> simp only [Fits,width,reduceCtorEq,if_true,if_false] at h <;> omega

theorem writeVarNumber_eq (number : Nat) :
    writeVarNumber number = (shortest number).write number := by
  unfold writeVarNumber shortest
  split_ifs <;> rfl

theorem size_shortest (number : Nat) : (shortest number).size = sizeOfVarNumber number := by
  rw [← length_write _ number,← writeVarNumber_eq,length_writeVarNumber]

theorem size_shortest_le (h : f.Fits number) : (shortest number).size ≤ f.size := by
  unfold shortest
  cases f <;> simp only [Fits,width,reduceCtorEq,if_true,if_false] at h <;> split_ifs <;>
    simp only [size,width] <;> omega

theorem eq_shortest_of_size (h : f.size = (shortest number).size) : f = shortest number := by
  generalize shortest number = g at h ⊢
  cases f <;> cases g <;> first | rfl | exact absurd h (by decide)

end Form

end Forms

section Shapes

theorem readVarNumber_write {f : Form} (h : f.Fits number) (rest : List UInt8) :
    readVarNumber (f.write number ++ rest) = .ok (number,rest) := by
  by_cases hf : f = .short
  · subst hf
    exact readVarNumber_octet h rest
  · unfold Form.Fits at h
    rw [if_neg hf] at h
    unfold Form.write
    rw [if_neg hf]
    refine readVarNumber_wide ?_ ?_ h rest
    · cases f with
      | short => exact absurd rfl hf
      | _ => decide
    · cases f with
      | short => exact absurd rfl hf
      | _ => rfl

private theorem exists_form_of_marker {firstOctet : UInt8} (h : ¬firstOctet < 253) :
    ∃ f : Form, f ≠ .short ∧ f.marker = firstOctet ∧
      (if firstOctet = 253 then 2 else if firstOctet = 254 then 4 else 8) = f.width := by
  have hbig : 253 ≤ firstOctet.toNat := by
    rw [UInt8.lt_iff_toNat_lt] at h
    exact not_lt.mp h
  have hlt := firstOctet.toNat_lt
  have hcases : firstOctet.toNat = 253 ∨ firstOctet.toNat = 254 ∨ firstOctet.toNat = 255 := by omega
  rcases hcases with h' | h' | h'
  · have heq : firstOctet = 253 := UInt8.toNat_inj.mp h'
    subst heq
    exact ⟨.two,by decide,rfl,rfl⟩
  · have heq : firstOctet = 254 := UInt8.toNat_inj.mp h'
    subst heq
    exact ⟨.four,by decide,rfl,rfl⟩
  · have heq : firstOctet = 255 := UInt8.toNat_inj.mp h'
    subst heq
    exact ⟨.eight,by decide,rfl,rfl⟩

/-- What is read was written in one of the forms. -/
theorem exists_form_of_readVarNumber (h : readVarNumber octets = .ok (number,rest)) :
    ∃ f : Form, f.Fits number ∧ octets = f.write number ++ rest := by
  cases octets with
  | nil => exact absurd h (by simp [readVarNumber])
  | cons firstOctet octets =>
    by_cases hfirst : firstOctet < 253
    · rw [readVarNumber,if_pos hfirst] at h
      obtain ⟨rfl,rfl⟩ := Prod.mk.inj (ok.inj h)
      refine ⟨.short,?_,?_⟩
      · exact UInt8.lt_iff_toNat_lt.mp hfirst
      · show firstOctet :: octets = [UInt8.ofNat firstOctet.toNat] ++ octets
        rw [UInt8.ofNat_toNat]
        rfl
    · obtain ⟨f,hf,hmarker,hwidth⟩ := exists_form_of_marker hfirst
      rw [readVarNumber,if_neg hfirst] at h
      dsimp only at h
      rw [hwidth] at h
      by_cases hlen : f.width ≤ octets.length
      · rw [if_pos hlen] at h
        obtain ⟨rfl,rfl⟩ := Prod.mk.inj (ok.inj h)
        have htake : (octets.take f.width).length = f.width := by
          rw [length_take]
          omega
        refine ⟨f,?_,?_⟩
        · unfold Form.Fits
          rw [if_neg hf]
          have hlt := ofBytes_lt (octets.take f.width)
          rwa [htake] at hlt
        · unfold Form.write
          rw [if_neg hf,hmarker]
          have hbytes := toBytes_ofBytes (octets.take f.width)
          rw [htake] at hbytes
          rw [hbytes,cons_append,take_append_drop]
      · rw [if_neg hlen] at h
        exact absurd h (by simp)

theorem readVarNumber_eq_ok : readVarNumber octets = .ok (number,rest) ↔
      ∃ f : Form, f.Fits number ∧ octets = f.write number ++ rest := by
  constructor
  · exact exists_form_of_readVarNumber
  · intro ⟨f,hfits,heq⟩
    rw [heq]
    exact readVarNumber_write hfits rest

theorem readType_eq_ok {type : Nat} : readType octets = .ok (type,rest) ↔
      0 < type ∧ type < 2^32 ∧ ∃ f : Form, f.Fits type ∧ octets = f.write type ++ rest := by
  rw [← readVarNumber_eq_ok]
  unfold readType
  cases hread : readVarNumber octets with
  | error e => simp [bind,Except.bind]
  | ok r =>
    obtain ⟨number,rest'⟩ := r
    dsimp only [bind,Except.bind]
    split_ifs with hbad
    · constructor
      · intro h
        exact absurd h (by simp)
      · intro ⟨hpos,hlt,heq⟩
        cases heq
        omega
    · constructor
      · intro h
        cases h
        exact ⟨by omega,by omega,rfl⟩
      · intro ⟨_,_,heq⟩
        exact heq

end Shapes

section Iterators

/-- How the octets are reached: `ReadNumberFast` is taken for contiguous memory, `ReadNumberSlow`
for other iterators. -/
inductive Iterator where
  | contiguous
  | generic
  deriving DecidableEq, Repr

def readNumberLoop : Nat → UInt64 → List UInt8 → Option (Nat × List UInt8)
  | 0, number, octets => some (number.toNat,octets)
  | _ + 1, _, [] => none
  | count + 1, number, octet :: octets =>
    readNumberLoop count ((number <<< 8) ||| octet.toUInt64) octets

def readNumberSlow (size : Nat) (octets : List UInt8) : Option (Nat × List UInt8) :=
  readNumberLoop size 0 octets

def readNumberFast (size : Nat) (octets : List UInt8) : Option (Nat × List UInt8) :=
  if size > octets.length then none else some (ofBytes (octets.take size),octets.drop size)

namespace Iterator

def readNumber : Iterator → Nat → List UInt8 → Option (Nat × List UInt8)
  | contiguous => readNumberFast
  | generic => readNumberSlow

variable (it : Iterator)

def readVarNumber? : List UInt8 → Option (Nat × List UInt8)
  | [] => none
  | firstOctet :: octets =>
    if firstOctet < 253 then some (firstOctet.toNat,octets)
    else
      let size := if firstOctet = 253 then 2 else if firstOctet = 254 then 4 else 8
      it.readNumber size octets

def readType? (octets : List UInt8) : Option (Nat × List UInt8) :=
  match it.readVarNumber? octets with
  | none => none
  | some (number,rest) => if number = 0 ∨ number > 0xFFFFFFFF then none else some (number,rest)

def readVarNumber (octets : List UInt8) : Except String (Nat × List UInt8) :=
  if octets = [] then .error "Empty buffer during TLV parsing"
  else
    match it.readVarNumber? octets with
    | none => .error "Insufficient data during TLV parsing"
    | some r => .ok r

def readType (octets : List UInt8) : Except String (Nat × List UInt8) := do
  let (type,rest) ← it.readVarNumber octets
  if type = 0 ∨ type > 0xFFFFFFFF then .error s!"Illegal TLV-TYPE {type}" else .ok (type,rest)

def readHeader (octets : List UInt8) : Except String (Nat × Nat × List UInt8) := do
  let (type,rest) ← it.readType octets
  let (length,rest) ← it.readVarNumber rest
  .ok (type,length,rest)

def readHeader? (octets : List UInt8) : Option (Nat × Nat × List UInt8) := do
  let (type,rest) ← it.readType? octets
  let (length,rest) ← it.readVarNumber? rest
  some (type,length,rest)

def readNonNegativeInteger (size : Nat) (octets : List UInt8) : Except String (Nat × List UInt8) :=
  if size ∉ [1,2,4,8] then .error s!"Invalid length {size} for NonNegativeInteger"
  else
    match it.readNumber size octets with
    | none => .error "Insufficient data during NonNegativeInteger parsing"
    | some r => .ok r

end Iterator

private theorem toNat_shiftIn {number : UInt64} (octet : UInt8) (h : number.toNat < 2^56) :
    ((number <<< 8) ||| octet.toUInt64).toNat = number.toNat * 256 + octet.toNat := by
  have hshift : (number <<< 8).toNat = 2^8 * number.toNat := by
    rw [UInt64.toNat_shiftLeft,show (8 : UInt64).toNat % 64 = 8 from rfl,Nat.shiftLeft_eq,
      Nat.mod_eq_of_lt (by omega),Nat.mul_comm]
  rw [UInt64.toNat_or,hshift,UInt8.toNat_toUInt64,
    ← Nat.two_pow_add_eq_or_of_lt (by have := octet.toNat_lt; omega)]
  omega

private theorem readNumberLoop_eq (count read : Nat) (hcount : read + count ≤ 8) (number : UInt64)
    (h : number.toNat < 256^read) (octets : List UInt8) :
    readNumberLoop count number octets =
      if count > octets.length then none
      else some (number.toNat * 256^count + ofBytes (octets.take count),octets.drop count) := by
  induction count generalizing read number octets with
  | zero =>
    rw [if_neg (Nat.not_lt_zero _)]
    simp [readNumberLoop,ofBytes]
  | succ count ih =>
    cases octets with
    | nil => exact (if_pos (Nat.succ_pos count)).symm
    | cons octet octets =>
      have hoctet := octet.toNat_lt
      have hpow : 256^read ≤ 256^7 := Nat.pow_le_pow_right (by decide) (by omega)
      have hnext := toNat_shiftIn octet (show number.toNat < 2^56 by omega)
      have hread : ((number <<< 8) ||| octet.toUInt64).toNat < 256^(read + 1) := by
        rw [hnext,pow_succ]
        omega
      rw [readNumberLoop,ih (read + 1) (by omega) _ hread,hnext]
      by_cases hlen : count > octets.length
      · rw [if_pos hlen,if_pos (by rw [length_cons]; omega)]
      · have htake : (octets.take count).length = count := by
          rw [length_take]
          omega
        rw [if_neg hlen,if_neg (by rw [length_cons]; omega),take_succ_cons,
          ofBytes_cons,htake,List.drop_succ_cons,pow_succ]
        congr 2
        ring

theorem readNumberSlow_eq_fast {size : Nat} (h : size ≤ 8) (octets : List UInt8) :
    readNumberSlow size octets = readNumberFast size octets := by
  have hloop := readNumberLoop_eq size 0 (by omega) 0 Nat.one_pos octets
  rw [show (0 : UInt64).toNat = 0 from rfl,Nat.zero_mul,Nat.zero_add] at hloop
  exact hloop

namespace Iterator

theorem readNumber_eq (it : Iterator) {size : Nat} (h : size ≤ 8) (octets : List UInt8) :
    it.readNumber size octets = readNumberFast size octets := by
  cases it with
  | contiguous => rfl
  | generic => exact readNumberSlow_eq_fast h octets

theorem readVarNumber?_eq (it : Iterator) (octets : List UInt8) :
    it.readVarNumber? octets = (Tlv.readVarNumber octets).toOption := by
  cases octets with
  | nil => rfl
  | cons firstOctet octets =>
    rw [readVarNumber?,Tlv.readVarNumber]
    by_cases hfirst : firstOctet < 253
    · rw [if_pos hfirst,if_pos hfirst]
      rfl
    · rw [if_neg hfirst,if_neg hfirst]
      dsimp only
      rw [it.readNumber_eq (by split_ifs <;> decide),readNumberFast]
      generalize (if firstOctet = 253 then 2 else if firstOctet = 254 then 4 else 8) = size
      by_cases hlen : size ≤ octets.length
      · rw [if_neg (not_lt.mpr hlen),if_pos hlen]
        rfl
      · rw [if_pos (not_le.mp hlen),if_neg hlen]
        rfl

theorem readVarNumber_eq (it : Iterator) (octets : List UInt8) :
    it.readVarNumber octets = Tlv.readVarNumber octets := by
  unfold readVarNumber
  rw [it.readVarNumber?_eq]
  cases octets with
  | nil => rfl
  | cons firstOctet octets =>
    rw [if_neg (List.cons_ne_nil _ _),Tlv.readVarNumber]
    dsimp only
    split_ifs <;> rfl

theorem readType_eq (it : Iterator) (octets : List UInt8) :
    it.readType octets = Tlv.readType octets := by
  unfold readType Tlv.readType
  rw [it.readVarNumber_eq]

theorem readType?_eq (it : Iterator) (octets : List UInt8) :
    it.readType? octets = (Tlv.readType octets).toOption := by
  unfold readType? Tlv.readType
  rw [it.readVarNumber?_eq]
  cases Tlv.readVarNumber octets with
  | error e => rfl
  | ok r =>
    dsimp only [bind,Except.bind,Except.toOption]
    split_ifs <;> rfl

theorem readHeader_eq_ok {it : Iterator} {type length : Nat} :
    it.readHeader octets = .ok (type,length,rest) ↔
      ∃ mid, Tlv.readType octets = .ok (type,mid) ∧ Tlv.readVarNumber mid = .ok (length,rest) := by
  unfold readHeader
  rw [it.readType_eq]
  cases htype : Tlv.readType octets with
  | error e => simp [bind,Except.bind]
  | ok r =>
    dsimp only [bind,Except.bind]
    rw [it.readVarNumber_eq]
    cases hlength : Tlv.readVarNumber r.2 with
    | error e =>
      simp only [reduceCtorEq,false_iff,not_exists,not_and]
      intro mid hmid
      rw [← (Prod.mk.inj (ok.inj hmid)).2,hlength]
      simp
    | ok r' =>
      constructor
      · intro h
        obtain ⟨rfl,hr⟩ := Prod.mk.inj (ok.inj h)
        exact ⟨r.2,rfl,hlength.trans (congrArg Except.ok hr)⟩
      · intro ⟨mid,hmid,hmid'⟩
        cases hmid
        rw [hlength] at hmid'
        rw [ok.inj hmid']

theorem readHeader?_eq (it : Iterator) (octets : List UInt8) :
    it.readHeader? octets = (it.readHeader octets).toOption := by
  unfold readHeader? readHeader
  rw [it.readType?_eq,it.readType_eq]
  cases Tlv.readType octets with
  | error e => rfl
  | ok r =>
    dsimp only [bind,Except.bind,Except.toOption,Option.bind]
    rw [it.readVarNumber?_eq,it.readVarNumber_eq]
    cases Tlv.readVarNumber r.2 <;> rfl

theorem readHeader?_eq_some {it : Iterator} {r : Nat × Nat × List UInt8} :
    it.readHeader? octets = some r ↔ it.readHeader octets = .ok r := by
  rw [it.readHeader?_eq]
  cases it.readHeader octets <;> simp [Except.toOption]

theorem readNonNegativeInteger_eq (it : Iterator) (size : Nat) (octets : List UInt8) :
    it.readNonNegativeInteger size octets =
      if size ∉ [1,2,4,8] then .error s!"Invalid length {size} for NonNegativeInteger"
      else if size > octets.length then
        .error "Insufficient data during NonNegativeInteger parsing"
      else .ok (ofBytes (octets.take size),octets.drop size) := by
  unfold readNonNegativeInteger
  by_cases hsize : size ∉ [1,2,4,8]
  · rw [if_pos hsize,if_pos hsize]
  · have hle : size ≤ 8 := by
      simp only [mem_cons,not_mem_nil,or_false,not_not] at hsize
      omega
    rw [if_neg hsize,if_neg hsize,it.readNumber_eq hle,readNumberFast]
    split_ifs <;> rfl

end Iterator

end Iterators

end KiteNdn.Tlv
