import Mathlib.Data.List.TakeWhile
import KiteNdn.Encoding.Tlv
import KiteNdn.Name.Successor

/-!
# Names as URIs

The canonical format writes a component as its type and its escaped value; the alternate format
leaves out the generic type, writes digests in hexadecimal and numbers in decimal. The parser takes
both. A number that is not in its shortest form loses its extra octets.
-/

namespace KiteNdn

open List

abbrev Uri := List Char

inductive UriFormat where
  | canonical
  | alternate
  deriving DecidableEq, Repr

variable {text : Uri} {c : Component}

namespace Uri

section Escapes

def toHexChar (n : Nat) (wantUpperCase : Bool) : Char :=
  (if wantUpperCase then
    ['0','1','2','3','4','5','6','7','8','9','A','B','C','D','E','F']
  else ['0','1','2','3','4','5','6','7','8','9','a','b','c','d','e','f']).getD (n % 16) '0'

def fromHexChar (c : Char) : Option Nat :=
  if '0' ≤ c ∧ c ≤ '9' then some (c.toNat - 48)
  else if 'A' ≤ c ∧ c ≤ 'F' then some (c.toNat - 65 + 10)
  else if 'a' ≤ c ∧ c ≤ 'f' then some (c.toNat - 97 + 10)
  else none

def isUnreserved (c : Char) : Bool :=
  ('a' ≤ c && c ≤ 'z') || ('A' ≤ c && c ≤ 'Z') || ('0' ≤ c && c ≤ '9') ||
    c = '-' || c = '.' || c = '_' || c = '~'

def escapeOctet (octet : UInt8) : Uri :=
  if isUnreserved (Char.ofNat octet.toNat) then [Char.ofNat octet.toNat]
  else ['%',toHexChar (octet.toNat / 16) true,toHexChar octet.toNat true]

def escape (octets : List UInt8) : Uri := octets.flatMap escapeOctet

def unescape : Uri → List UInt8
  | c :: h :: l :: rest =>
    if c = '%' then
      match fromHexChar h, fromHexChar l with
      | some hi, some lo => UInt8.ofNat (hi * 16 + lo) :: unescape rest
      -- characters that are no hexadecimal digits are kept with their percent sign
      | _, _ => c.toUInt8 :: h.toUInt8 :: l.toUInt8 :: unescape rest
    else c.toUInt8 :: unescape (h :: l :: rest)
  | c :: rest => c.toUInt8 :: unescape rest
  | [] => []

def printHex (octets : List UInt8) : Uri :=
  octets.flatMap fun octet => [toHexChar (octet.toNat / 16) false,toHexChar octet.toNat false]

def fromHex : Uri → Option (List UInt8)
  | [] => some []
  | [_] => none
  | h :: l :: rest => do
    let hi ← fromHexChar h
    let lo ← fromHexChar l
    let octets ← fromHex rest
    some (UInt8.ofNat (hi * 16 + lo) :: octets)

def Clean (uri : Uri) : Prop := ∀ c ∈ uri, isUnreserved c = true ∨ c = '%'

private theorem toHexChar_spec (n : Nat) (wantUpperCase : Bool) :
    fromHexChar (toHexChar n wantUpperCase) = some (n % 16) ∧
      isUnreserved (toHexChar n wantUpperCase) = true := by
  have hall : ∀ (k : Fin 16) (u : Bool),
      fromHexChar (toHexChar k u) = some k ∧ isUnreserved (toHexChar k u) = true := by
    decide
  have hmod : toHexChar n wantUpperCase = toHexChar (n % 16) wantUpperCase := by
    simp [toHexChar]
  rw [hmod]
  exact hall ⟨n % 16,Nat.mod_lt n (by decide)⟩ wantUpperCase

@[simp] theorem fromHexChar_toHexChar (n : Nat) (wantUpperCase : Bool) :
    fromHexChar (toHexChar n wantUpperCase) = some (n % 16) :=
  (toHexChar_spec n wantUpperCase).1

private theorem octet_of_digits (octet : UInt8) :
    UInt8.ofNat (octet.toNat / 16 % 16 * 16 + octet.toNat % 16) = octet := by
  have hlt := octet.toNat_lt
  have hdigits : octet.toNat / 16 % 16 * 16 + octet.toNat % 16 = octet.toNat := by omega
  rw [hdigits,UInt8.ofNat_toNat]

private theorem octet_of_char (octet : UInt8) : (Char.ofNat octet.toNat).toUInt8 = octet := by
  have hall : ∀ n : Fin 256, (Char.ofNat n).toUInt8 = UInt8.ofNat n := by decide +kernel
  have hoctet := hall ⟨octet.toNat,octet.toNat_lt⟩
  rwa [UInt8.ofNat_toNat] at hoctet

private theorem unescape_cons {c : Char} (h : c ≠ '%') (rest : Uri) :
    unescape (c :: rest) = c.toUInt8 :: unescape rest := by
  cases rest with
  | nil => rfl
  | cons d rest =>
    cases rest with
    | nil => rfl
    | cons e rest => rw [unescape,if_neg h]

private theorem unescape_escapeOctet (octet : UInt8) (rest : Uri) :
    unescape (escapeOctet octet ++ rest) = octet :: unescape rest := by
  rw [escapeOctet]
  split_ifs with h
  · have hne : Char.ofNat octet.toNat ≠ '%' := by
      intro he
      rw [he] at h
      exact absurd h (by decide)
    rw [singleton_append,unescape_cons hne,octet_of_char]
  · simp only [cons_append,nil_append,unescape,↓reduceIte,fromHexChar_toHexChar,
      octet_of_digits]

theorem unescape_escape (octets : List UInt8) (rest : Uri) :
    unescape (escape octets ++ rest) = octets ++ unescape rest := by
  induction octets with
  | nil => rfl
  | cons octet octets ih =>
    rw [escape,flatMap_cons,append_assoc,unescape_escapeOctet,cons_append]
    exact congrArg _ ih

theorem fromHex_printHex (octets : List UInt8) : fromHex (printHex octets) = some octets := by
  induction octets with
  | nil => rfl
  | cons octet octets ih =>
    have hcons : printHex (octet :: octets) = toHexChar (octet.toNat / 16) false ::
        toHexChar octet.toNat false :: printHex octets := rfl
    simp only [hcons,fromHex,ih,fromHexChar_toHexChar,Option.bind_eq_bind,Option.bind_some,
      octet_of_digits]

theorem clean_append {x y : Uri} (hx : Clean x) (hy : Clean y) : Clean (x ++ y) := by
  intro c hc
  exact (mem_append.mp hc).elim (hx c) (hy c)

theorem clean_escape (octets : List UInt8) : Clean (escape octets) := by
  intro c hc
  obtain ⟨octet,-,hmem⟩ := mem_flatMap.mp hc
  rw [escapeOctet] at hmem
  split_ifs at hmem with h
  · rw [mem_singleton.mp hmem]
    exact Or.inl h
  · simp only [mem_cons,not_mem_nil,or_false] at hmem
    rcases hmem with rfl | rfl | rfl
    · exact Or.inr rfl
    · exact Or.inl (toHexChar_spec _ _).2
    · exact Or.inl (toHexChar_spec _ _).2

theorem clean_printHex (octets : List UInt8) : Clean (printHex octets) := by
  intro c hc
  obtain ⟨octet,-,hmem⟩ := mem_flatMap.mp hc
  simp only [mem_cons,not_mem_nil,or_false] at hmem
  rcases hmem with rfl | rfl
  · exact Or.inl (toHexChar_spec _ _).2
  · exact Or.inl (toHexChar_spec _ _).2

theorem clean_toDigits (n : Nat) : Clean (Nat.toDigits 10 n) := by
  intro c hc
  have hdigit := Nat.isDigit_of_mem_toDigits (by decide) (by decide) hc
  simp only [Char.isDigit,Bool.and_eq_true,decide_eq_true_eq] at hdigit
  have hge : '0' ≤ c := hdigit.1
  have hle : c ≤ '9' := hdigit.2
  simp [isUnreserved,hge,hle]

theorem Clean.ne {uri : Uri} (h : Clean uri) {c d : Char} (hc : c ∈ uri)
    (hd : isUnreserved d = false) (hpercent : d ≠ '%') : c ≠ d := by
  intro he
  subst he
  rcases h c hc with hfree | rfl
  · rw [hd] at hfree
    exact absurd hfree (by decide)
  · exact hpercent rfl

end Escapes

section Numbers

/-- The number in the digits at the front. A sign or blanks before them make no difference to the
callers, who compare the text with the digits of the number. -/
def strtoul (text : Uri) : Nat := Nat.ofDigitChars 10 (text.takeWhile Char.isDigit) 0

theorem strtoul_toDigits (n : Nat) : strtoul (Nat.toDigits 10 n) = n := by
  have hall : ∀ c ∈ Nat.toDigits 10 n, c.isDigit = true := fun c hc =>
    Nat.isDigit_of_mem_toDigits (by decide) (by decide) hc
  rw [strtoul,takeWhile_eq_self_iff.mpr hall]
  exact Nat.ofDigitChars_toDigits (by decide) (by decide)

end Numbers

end Uri

inductive ComponentType where
  | base
  | generic
  | sha256 (type : Nat) (typeName : String) (uriPrefix : Uri)
  | decimal (type : Nat) (typeName : String) (uriPrefix : Uri)

namespace ComponentType

def getAltUriPrefix : ComponentType → Option Uri
  | base => none
  | generic => none
  | sha256 _ _ uriPrefix => some uriPrefix
  | decimal _ _ uriPrefix => some uriPrefix

def isDecimal : ComponentType → Bool
  | decimal _ _ _ => true
  | _ => false

def table : List (Nat × ComponentType) :=
  [(1,sha256 1 "ImplicitSha256DigestComponent"
      ['s','h','a','2','5','6','d','i','g','e','s','t']),
    (2,sha256 2 "ParametersSha256DigestComponent"
      ['p','a','r','a','m','s','-','s','h','a','2','5','6']),
    (8,generic),
    (32,base),
    (50,decimal 50 "SegmentNameComponent" ['s','e','g']),
    (52,decimal 52 "ByteOffsetNameComponent" ['o','f','f']),
    (54,decimal 54 "VersionNameComponent" ['v']),
    (56,decimal 56 "TimestampNameComponent" ['t']),
    (58,decimal 58 "SequenceNumNameComponent" ['s','e','q'])]

def get (type : Nat) : ComponentType := (table.lookup type).getD base

def findByUriPrefix (text : Uri) : Option ComponentType :=
  (table.map Prod.snd).find? fun ct => ct.getAltUriPrefix = some text

def check : ComponentType → Component → Except String Unit
  | sha256 _ typeName _, c =>
    if c.value.length ≠ 32 then .error s!"{typeName} TLV-LENGTH must be 32" else .ok ()
  | _, _ => .ok ()

end ComponentType

namespace Component

def ensureValid (c : Component) : Except String Unit :=
  if c.type < 1 ∨ 65535 < c.type then
    .error s!"TLV-TYPE {c.type} is not a valid NameComponent"
  else (ComponentType.get c.type).check c

def construct (type : Nat) (value : List UInt8) : Except String Component := do
  ensureValid ⟨type,value⟩
  return ⟨type,value⟩

def toNumber (c : Component) : Nat := Framework.ofBytes c.value

def fromNumber (number type : Nat) : Except String Component :=
  construct type (Tlv.writeNonNegativeInteger number)

def parseUriEscapedValue (type : Nat) (input : Uri) : Except String Component :=
  let value := Uri.unescape input
  if value.all (· = '.'.toUInt8) then
    if value.length < 3 then .error "Illegal URI (name component cannot be . or ..)"
    else construct type (value.take (value.length - 3))
  else construct type value

def writeUriEscapedValue (value : List UInt8) : Uri :=
  (if value.all (· = '.'.toUInt8) then ['.','.','.'] else []) ++ Uri.escape value

end Component

namespace ComponentType

def parseAltUriValue : ComponentType → Uri → Except String Component
  | sha256 type typeName _, input =>
    match Uri.fromHex input with
    | none => .error s!"Cannot convert to {typeName} (invalid hex encoding)"
    | some value => Component.construct type value
  | decimal type typeName _, input =>
    if input.takeWhile Char.isDigit = [] then
      .error s!"Cannot convert to {typeName} (invalid format)"
    else if 2^64 ≤ Uri.strtoul input then
      .error s!"Cannot convert to {typeName} (out of range)"
    else if Nat.toDigits 10 (Uri.strtoul input) ≠ input then
      .error s!"Cannot convert to {typeName} (invalid format)"
    else Component.fromNumber (Uri.strtoul input) type
  -- not reached: these types have no alternate form with a type before the value
  | base, _ => .error ""
  | generic, _ => .error ""

def writeUriBase (c : Component) : Uri :=
  Nat.toDigits 10 c.type ++ '=' :: Component.writeUriEscapedValue c.value

def writeUri : ComponentType → Component → Uri
  | base, c => writeUriBase c
  | generic, c => Component.writeUriEscapedValue c.value
  | sha256 _ _ uriPrefix, c => uriPrefix ++ '=' :: Uri.printHex c.value
  | decimal _ _ uriPrefix, c =>
    if c.isNumber then uriPrefix ++ '=' :: Nat.toDigits 10 c.toNumber else writeUriBase c

end ComponentType

namespace Component

def fromEscapedString (input : Uri) : Except String Component :=
  match input.dropWhile (· ≠ '=') with
  | [] => parseUriEscapedValue genericNameComponent input
  | _ :: value =>
    let typePrefix := input.takeWhile (· ≠ '=')
    let type := Uri.strtoul typePrefix
    if (1 ≤ type ∧ type ≤ 65535) ∧ Nat.toDigits 10 type = typePrefix then
      parseUriEscapedValue type value
    else
      match ComponentType.findByUriPrefix typePrefix with
      | none => .error s!"Unknown TLV-TYPE '{String.ofList typePrefix}' in NameComponent URI"
      | some ct => ct.parseAltUriValue value

def toUri (format : UriFormat) (c : Component) : Uri :=
  match format with
  | .canonical => ComponentType.base.writeUri c
  | .alternate => (ComponentType.get c.type).writeUri c

end Component

namespace Name

/-- Without the protocol, a colon before the first slash. -/
def stripScheme (uri : Uri) : Uri :=
  match uri.findIdx? (· = ':') with
  | none => uri
  | some iColon =>
    if (uri.findIdx? (· = '/')).all (iColon < ·) then uri.drop (iColon + 1) else uri

/-- Without the leading slash and the authority; nothing if there was only an authority. -/
def stripAuthority : Uri → Option Uri
  | '/' :: '/' :: rest => (rest.findIdx? (· = '/')).map fun i => rest.drop (i + 1)
  | '/' :: rest => some rest
  | uri => some uri

/-- The texts between the slashes. There is none after a slash at the end. -/
def componentTexts : Uri → List Uri
  | [] => []
  | c :: rest =>
    if c = '/' then [] :: componentTexts rest
    else
      match componentTexts rest with
      | [] => [[c]]
      | text :: texts => (c :: text) :: texts

def ofUri (uri : Uri) : Except String Name :=
  if uri = [] then .ok []
  else
    match stripAuthority (stripScheme uri) with
    | none => .ok []
    | some texts => (componentTexts texts).mapM Component.fromEscapedString

def toUri (format : UriFormat) (n : Name) : Uri :=
  if n = [] then ['/'] else n.flatMap fun c => '/' :: c.toUri format

end Name

namespace Component

section RoundTrip

theorem construct_valid (h : c.ensureValid = .ok ()) : construct c.type c.value = .ok c := by
  rw [construct,h]
  rfl

private theorem unescape_written (value : List UInt8) : Uri.unescape (writeUriEscapedValue value) =
      (if value.all (· = '.'.toUInt8) then replicate 3 '.'.toUInt8 else []) ++ value := by
  have hescape : Uri.unescape (Uri.escape value) = value := by
    have h := Uri.unescape_escape value []
    rwa [append_nil,Uri.unescape,append_nil] at h
  rw [writeUriEscapedValue]
  split_ifs
  · show Uri.unescape ('.' :: '.' :: '.' :: Uri.escape value) = _
    rw [Uri.unescape_cons (by decide),Uri.unescape_cons (by decide),
      Uri.unescape_cons (by decide),hescape]
    rfl
  · exact hescape

theorem parseUriEscapedValue_written (type : Nat) (value : List UInt8) :
    parseUriEscapedValue type (writeUriEscapedValue value) = construct type value := by
  rw [parseUriEscapedValue,unescape_written]
  by_cases h : value.all (· = '.'.toUInt8) = true
  · have hvalue : value = replicate value.length '.'.toUInt8 :=
      eq_replicate_iff.mpr ⟨rfl,by simpa using h⟩
    have hall : (replicate 3 '.'.toUInt8 ++ value).all (· = '.'.toUInt8) = true := by
      rw [all_append,h]
      rfl
    have hlen : (replicate 3 '.'.toUInt8 ++ value).length = value.length + 3 := by
      rw [length_append,length_replicate,Nat.add_comm]
    have htake : (replicate 3 '.'.toUInt8 ++ value).take value.length = value := by
      rw [hvalue,← replicate_add,length_replicate,take_replicate,
        Nat.min_eq_left (by omega)]
    rw [if_pos h,if_pos hall,hlen,if_neg (by omega),Nat.add_sub_cancel,htake]
  · rw [if_neg h,nil_append,if_neg h]

private theorem clean_written (value : List UInt8) : Uri.Clean (writeUriEscapedValue value) := by
  apply Uri.clean_append
  · split_ifs
    · intro c hc
      rw [eq_of_mem_replicate (show c ∈ replicate 3 '.' from hc)]
      exact Or.inl (by decide)
    · exact fun _ hc => absurd hc not_mem_nil
  · exact Uri.clean_escape value

private theorem written_ne_nil (value : List UInt8) : writeUriEscapedValue value ≠ [] := by
  cases value with
  | nil => decide
  | cons octet value =>
    rw [writeUriEscapedValue,Uri.escape,flatMap_cons,Uri.escapeOctet]
    split_ifs
    all_goals simp

theorem fromEscapedString_untyped (h : ∀ c ∈ text, c ≠ '=') :
    fromEscapedString text = parseUriEscapedValue genericNameComponent text := by
  have hdrop : text.dropWhile (· ≠ '=') = [] :=
    dropWhile_eq_nil_iff.mpr fun c hc => by simpa using h c hc
  rw [fromEscapedString,hdrop]

theorem fromEscapedString_typed (h : ∀ c ∈ text, c ≠ '=') (value : Uri) :
    fromEscapedString (text ++ '=' :: value) =
      if (1 ≤ Uri.strtoul text ∧ Uri.strtoul text ≤ 65535) ∧
          Nat.toDigits 10 (Uri.strtoul text) = text then
        parseUriEscapedValue (Uri.strtoul text) value
      else
        match ComponentType.findByUriPrefix text with
        | none => .error s!"Unknown TLV-TYPE '{String.ofList text}' in NameComponent URI"
        | some ct => ct.parseAltUriValue value := by
  have hne : ∀ c ∈ text, (decide (c ≠ '=')) = true := fun c hc => by simpa using h c hc
  have hdrop : (text ++ '=' :: value).dropWhile (· ≠ '=') = '=' :: value := by
    rw [dropWhile_append_of_pos hne]
    rfl
  have htake : (text ++ '=' :: value).takeWhile (· ≠ '=') = text := by
    rw [takeWhile_append_of_pos hne]
    simp
  rw [fromEscapedString,hdrop,htake]

private theorem ne_equal_of_clean (h : Uri.Clean text) : ∀ c ∈ text, c ≠ '=' :=
  fun _ hc => h.ne hc (by decide) (by decide)

theorem fromEscapedString_base (h : c.ensureValid = .ok ()) :
    fromEscapedString (ComponentType.writeUriBase c) = .ok c := by
  have htype : 1 ≤ c.type ∧ c.type ≤ 65535 := by
    rw [ensureValid] at h
    split_ifs at h with hrange
    omega
  have hdigits : Nat.toDigits 10 (Uri.strtoul (Nat.toDigits 10 c.type)) =
      Nat.toDigits 10 c.type := by
    rw [Uri.strtoul_toDigits]
  rw [ComponentType.writeUriBase,
    fromEscapedString_typed (ne_equal_of_clean (Uri.clean_toDigits c.type)),
    if_pos ⟨by rwa [Uri.strtoul_toDigits],hdigits⟩,Uri.strtoul_toDigits,
    parseUriEscapedValue_written]
  exact construct_valid h

end RoundTrip

end Component

namespace ComponentType

/-- The rules are entered under their own type, and are found by the text they write before a
value, which is no number. -/
def Registered (type : Nat) (ct : ComponentType) : Prop :=
  match ct with
  | base => True
  | generic => type = Component.genericNameComponent
  | sha256 t _ uriPrefix | decimal t _ uriPrefix =>
    t = type ∧ findByUriPrefix uriPrefix = some ct ∧ Uri.Clean uriPrefix ∧ Uri.strtoul uriPrefix = 0

private theorem clean_of_all (h : text.all Uri.isUnreserved = true) :
    Uri.Clean text := fun c hc => Or.inl (all_eq_true.mp h c hc)

theorem table_registered : ∀ entry ∈ table, Registered entry.1 entry.2 := by
  intro entry hentry
  simp only [table,mem_cons,not_mem_nil,or_false] at hentry
  rcases hentry with rfl | rfl | rfl | rfl | rfl | rfl | rfl | rfl | rfl
  case inr.inr.inl => rfl
  case inr.inr.inr.inl => exact trivial
  all_goals exact ⟨rfl,rfl,clean_of_all (by decide),by decide⟩

theorem get_registered (type : Nat) : Registered type (get type) := by
  rw [get]
  cases hlookup : table.lookup type with
  | none => exact trivial
  | some ct =>
    obtain ⟨before,after,htable,-⟩ := lookup_eq_some_iff.mp hlookup
    exact table_registered (type,ct) (by simp [htable])

end ComponentType

namespace Component

/-- What the text of a component is parsed to: a number loses the octets it does not need. -/
def reparsed (format : UriFormat) (c : Component) : Component :=
  if format = .alternate ∧ (ComponentType.get c.type).isDecimal ∧ c.isNumber then
    ⟨c.type,Tlv.writeNonNegativeInteger c.toNumber⟩
  else c

theorem fromEscapedString_alternate {ct : ComponentType} (hclean : Uri.Clean text)
    (hzero : Uri.strtoul text = 0) (hfind : ComponentType.findByUriPrefix text = some ct)
    (value : Uri) : fromEscapedString (text ++ '=' :: value) = ct.parseAltUriValue value := by
  rw [fromEscapedString_typed (ne_equal_of_clean hclean),hzero,if_neg (by omega),hfind]

private theorem ensureValid_number (h : c.ensureValid = .ok ())
    (hdecimal : (ComponentType.get c.type).isDecimal = true) (value : List UInt8) :
    ensureValid ⟨c.type,value⟩ = .ok () := by
  rw [ensureValid] at h ⊢
  split_ifs at h with hrange
  rw [if_neg hrange]
  dsimp only
  cases hct : ComponentType.get c.type with
  | decimal _ _ _ => rfl
  | sha256 _ _ _ => rw [hct] at hdecimal; exact absurd hdecimal Bool.false_ne_true
  | _ => rw [hct] at hdecimal; exact absurd hdecimal (by decide)

private theorem toNumber_lt (h : c.isNumber = true) : c.toNumber < 2^64 := by
  have hread : Tlv.readNonNegativeInteger c.value = .ok c.toNumber := by
    rw [Tlv.readNonNegativeInteger,if_pos (of_decide_eq_true h)]
    rfl
  exact Tlv.readNonNegativeInteger_lt hread

private theorem parse_decimal {number : Nat} (h : number < 2^64) (type : Nat) (typeName : String)
    (uriPrefix : Uri) :
    (ComponentType.decimal type typeName uriPrefix).parseAltUriValue (Nat.toDigits 10 number) =
      fromNumber number type := by
  have hall : ∀ c ∈ Nat.toDigits 10 number, c.isDigit = true := fun c hc =>
    Nat.isDigit_of_mem_toDigits (by decide) (by decide) hc
  rw [ComponentType.parseAltUriValue,takeWhile_eq_self_iff.mpr hall,
    if_neg Nat.toDigits_ne_nil,Uri.strtoul_toDigits,if_neg (by omega),if_neg (not_not.mpr rfl)]

theorem fromEscapedString_toUri (h : c.ensureValid = .ok ()) (format : UriFormat) :
    fromEscapedString (c.toUri format) = .ok (c.reparsed format) := by
  cases format with
  | canonical =>
    rw [reparsed,if_neg (fun hf => absurd hf.1 (by decide))]
    exact fromEscapedString_base h
  | alternate =>
    have hreg := ComponentType.get_registered c.type
    rw [toUri,reparsed]
    cases hct : ComponentType.get c.type with
    | base =>
      rw [if_neg (fun hf => absurd hf.2.1 (by decide))]
      exact fromEscapedString_base h
    | generic =>
      rw [hct] at hreg
      have hclean : Uri.Clean (writeUriEscapedValue c.value) := clean_written c.value
      rw [if_neg (fun hf => absurd hf.2.1 (by decide)),ComponentType.writeUri,
        fromEscapedString_untyped (ne_equal_of_clean hclean),parseUriEscapedValue_written,
        ← hreg]
      exact construct_valid h
    | sha256 type typeName uriPrefix =>
      rw [hct] at hreg
      obtain ⟨rfl,hfind,hclean,hzero⟩ := hreg
      rw [if_neg (fun hf => absurd hf.2.1 Bool.false_ne_true),ComponentType.writeUri,
        fromEscapedString_alternate hclean hzero hfind,ComponentType.parseAltUriValue,
        Uri.fromHex_printHex]
      exact construct_valid h
    | decimal type typeName uriPrefix =>
      rw [hct] at hreg
      obtain ⟨rfl,hfind,hclean,hzero⟩ := hreg
      rw [ComponentType.writeUri]
      by_cases hnumber : c.isNumber = true
      · have hvalid := ensureValid_number h (by rw [hct]; rfl)
          (Tlv.writeNonNegativeInteger c.toNumber)
        rw [if_pos hnumber,if_pos ⟨rfl,rfl,hnumber⟩,
          fromEscapedString_alternate hclean hzero hfind,parse_decimal (toNumber_lt hnumber)]
        exact construct_valid hvalid
      · rw [if_neg hnumber,if_neg (fun hf => hnumber hf.2.2)]
        exact fromEscapedString_base h

/-- The text of a component has characters, and none that separates components. -/
structure Text (text : Uri) : Prop where
  nonempty : text ≠ []
  slash : ∀ c ∈ text, c ≠ '/'
  colon : ∀ c ∈ text, c ≠ ':'

private theorem Text.clean (hne : text ≠ []) (h : Uri.Clean text) : Text text :=
  ⟨hne,fun _ hc => h.ne hc (by decide) (by decide),fun _ hc => h.ne hc (by decide) (by decide)⟩

private theorem Text.typed {value : Uri} (htext : Uri.Clean text) (hvalue : Uri.Clean value) :
    Text (text ++ '=' :: value) := by
  have hsep : ∀ {d : Char}, Uri.isUnreserved d = false → d ≠ '%' → d ≠ '=' →
      ∀ c ∈ text ++ '=' :: value, c ≠ d := by
    intro d hd hpercent hequal c hc
    simp only [mem_append,mem_cons] at hc
    rcases hc with hc | rfl | hc
    · exact htext.ne hc hd hpercent
    · exact hequal.symm
    · exact hvalue.ne hc hd hpercent
  exact ⟨by simp,hsep (by decide) (by decide) (by decide),hsep (by decide) (by decide) (by decide)⟩

theorem text_toUri (c : Component) (format : UriFormat) : Text (c.toUri format) := by
  have hbase : Text (ComponentType.writeUriBase c) :=
    Text.typed (Uri.clean_toDigits c.type) (clean_written c.value)
  cases format with
  | canonical => exact hbase
  | alternate =>
    have hreg := ComponentType.get_registered c.type
    rw [toUri]
    cases hct : ComponentType.get c.type with
    | base => exact hbase
    | generic => exact Text.clean (written_ne_nil c.value) (clean_written c.value)
    | sha256 type typeName uriPrefix =>
      rw [hct] at hreg
      exact Text.typed hreg.2.2.1 (Uri.clean_printHex c.value)
    | decimal type typeName uriPrefix =>
      rw [hct] at hreg
      rw [ComponentType.writeUri]
      split_ifs
      · exact Text.typed hreg.2.2.1 (Uri.clean_toDigits c.toNumber)
      · exact hbase

end Component

namespace Name

theorem componentTexts_slash (h : ∀ c ∈ text, c ≠ '/') (rest : Uri) :
    componentTexts (text ++ '/' :: rest) = text :: componentTexts rest := by
  induction text with
  | nil => rfl
  | cons c text ih =>
    have hc := h c mem_cons_self
    rw [cons_append,componentTexts,if_neg hc,ih fun d hd => h d (mem_cons_of_mem _ hd)]

theorem componentTexts_last (hne : text ≠ []) (h : ∀ c ∈ text, c ≠ '/') :
    componentTexts text = [text] := by
  induction text with
  | nil => exact absurd rfl hne
  | cons c text ih =>
    have hc := h c mem_cons_self
    rw [componentTexts,if_neg hc]
    cases text with
    | nil => rfl
    | cons d text => rw [ih (by simp) fun e he => h e (mem_cons_of_mem _ he)]

theorem componentTexts_joined (text : Uri) (texts : List Uri) (htext : Component.Text text)
    (htexts : ∀ t ∈ texts, Component.Text t) :
    componentTexts (text ++ texts.flatMap ('/' :: ·)) = text :: texts := by
  induction texts generalizing text with
  | nil => rw [flatMap_nil,append_nil,componentTexts_last htext.nonempty htext.slash]
  | cons next texts ih =>
    rw [flatMap_cons,cons_append,componentTexts_slash htext.slash,
      ih next (htexts next mem_cons_self) fun t ht => htexts t (mem_cons_of_mem _ ht)]

private theorem stripScheme_of_no_colon {uri : Uri} (h : ∀ c ∈ uri, c ≠ ':') :
    stripScheme uri = uri := by
  have hnone : uri.findIdx? (· = ':') = none :=
    findIdx?_eq_none_iff.mpr fun c hc => by simpa using h c hc
  rw [stripScheme,hnone]

private theorem stripAuthority_slash {rest : Uri} (h : Component.Text text) :
    stripAuthority ('/' :: (text ++ rest)) = some (text ++ rest) := by
  cases text with
  | nil => exact absurd rfl h.nonempty
  | cons c text =>
    have hc := h.slash c mem_cons_self
    rw [cons_append]
    unfold stripAuthority
    split
    · rename_i he
      cases he
      exact absurd rfl hc
    · rename_i he
      cases he
      rfl
    · rename_i hne
      exact absurd rfl (hne _)

private theorem mapM_of_ok {α β : Type} {f : α → Except String β} {g : α → β} {l : List α}
    (h : ∀ x ∈ l, f x = .ok (g x)) : l.mapM f = .ok (l.map g) := by
  induction l with
  | nil => rfl
  | cons x l ih =>
    rw [mapM_cons,h x mem_cons_self,ih fun y hy => h y (mem_cons_of_mem _ hy)]
    rfl

theorem ofUri_toUri {n : Name} (h : ∀ c ∈ n, c.ensureValid = .ok ()) (format : UriFormat) :
    ofUri (n.toUri format) = .ok (n.map (Component.reparsed format)) := by
  cases n with
  | nil => rfl
  | cons c n =>
    have htext := c.text_toUri format
    have htexts : ∀ t ∈ n.map (Component.toUri format), Component.Text t := by
      intro t ht
      obtain ⟨d,-,rfl⟩ := mem_map.mp ht
      exact d.text_toUri format
    have huri : toUri format (c :: n) = '/' :: (c.toUri format ++
        (n.map (Component.toUri format)).flatMap ('/' :: ·)) := by
      rw [toUri,if_neg (cons_ne_nil c n),flatMap_cons,flatMap_map,cons_append]
    have hcolon : ∀ d ∈ toUri format (c :: n), d ≠ ':' := by
      intro d hd
      rw [toUri,if_neg (cons_ne_nil c n)] at hd
      obtain ⟨e,-,hmem⟩ := mem_flatMap.mp hd
      rcases mem_cons.mp hmem with rfl | hmem
      · decide
      · exact (e.text_toUri format).colon d hmem
    rw [ofUri,if_neg (by rw [huri]; exact cons_ne_nil _ _),stripScheme_of_no_colon hcolon,
      huri,stripAuthority_slash htext]
    dsimp only
    rw [componentTexts_joined _ _ htext htexts,← map_cons,mapM_map]
    exact mapM_of_ok fun d hd => Component.fromEscapedString_toUri (h d hd) format

end Name

/-- A typed number has no octets that its value does not need. -/
def Component.Shortest (c : Component) : Prop :=
  (ComponentType.get c.type).isDecimal = true → c.isNumber = true →
    c.value = Tlv.writeNonNegativeInteger c.toNumber

theorem Component.reparsed_eq_self_iff (c : Component) :
    c.reparsed .alternate = c ↔ c.Shortest := by
  rw [reparsed]
  split_ifs with h
  · constructor
    · intro he _ _
      exact (congrArg Component.value he).symm
    · intro he
      rw [← he h.2.1 h.2.2]
  · exact iff_of_true rfl fun hdecimal hnumber => absurd ⟨rfl,hdecimal,hnumber⟩ h

/-- The canonical URI of a name is parsed to the name. The alternate one is, if and only if each
typed number is in its shortest form. -/
theorem Name.uri_roundTrip (n : Name) (h : ∀ c ∈ n, c.ensureValid = .ok ()) :
    ofUri (n.toUri .canonical) = .ok n ∧
      (ofUri (n.toUri .alternate) = .ok n ↔ ∀ c ∈ n, c.Shortest) := by
  have hcanonical : n.map (Component.reparsed .canonical) = n := by
    have hsame : Component.reparsed .canonical = id := by
      funext c
      exact if_neg fun hf => absurd hf.1 (by decide)
    rw [hsame,map_id]
  refine ⟨by rw [ofUri_toUri h,hcanonical],?_⟩
  have hmap : n.map (Component.reparsed .alternate) = n.map id ↔
      ∀ c ∈ n, c.reparsed .alternate = c := map_inj_left
  rw [map_id] at hmap
  rw [ofUri_toUri h,Except.ok.injEq,hmap]
  simp only [Component.reparsed_eq_self_iff]

theorem Name.uri_roundTrip_segment : (∀ c ∈ ([⟨8,[]⟩,⟨50,[5]⟩] : Name), c.ensureValid = .ok ()) ∧
      ofUri (toUri .canonical [⟨8,[]⟩,⟨50,[5]⟩]) = .ok [⟨8,[]⟩,⟨50,[5]⟩] :=
  have hvalid : ∀ c ∈ ([⟨8,[]⟩,⟨50,[5]⟩] : Name), c.ensureValid = .ok () := by
    simp only [forall_mem_cons]
    exact ⟨rfl,rfl,fun _ hc => absurd hc not_mem_nil⟩
  ⟨hvalid,(uri_roundTrip _ hvalid).1⟩

def Name.paddedSegment : Name := [⟨50,[0,5]⟩]

theorem Name.paddedSegment_uri_shortens : (∀ c ∈ paddedSegment, c.ensureValid = .ok ()) ∧
      paddedSegment.toUri .alternate = ['/','s','e','g','=','5'] ∧
      ofUri (paddedSegment.toUri .alternate) = .ok [⟨50,[5]⟩] ∧
      paddedSegment ≠ [⟨50,[5]⟩] :=
  ⟨fun c hc => by rw [mem_singleton.mp hc]; rfl,by decide,rfl,by decide⟩

end KiteNdn
