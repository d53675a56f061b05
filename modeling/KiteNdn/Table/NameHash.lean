import KiteNdn.NameTree.Hashtable
import KiteNdn.Packet.Names
import KiteNdn.Table.DeadNonceList

/-!
# Hashes of names

Names are equal if types and values of their components are, but the tables hash the octets that a
name was decoded from. The hash functions are arguments; `CityHash64`, which the name tree and the
Dead Nonce List use, is there for the runs on fixed names.
-/

namespace KiteNdn

open Framework Tlv Table List EncodedName

namespace CityHash

def k0 : UInt64 := 0xc3a5c85c97cb3127
def k1 : UInt64 := 0xb492b66fbe98f273
def k2 : UInt64 := 0x9ae16a3b2f90404f

def fetch (width : Nat) (s : List UInt8) (i : Nat) : UInt64 :=
  ((s.drop i).take width).foldr (fun octet number => number <<< 8 ||| octet.toUInt64) 0

def fetch32 (s : List UInt8) (i : Nat) : UInt64 := fetch 4 s i

def fetch64 (s : List UInt8) (i : Nat) : UInt64 := fetch 8 s i

def bswap64 (x : UInt64) : UInt64 :=
  (List.range 8).foldl (fun y i => y <<< 8 ||| (x >>> (8 * UInt64.ofNat i) &&& 0xff)) 0

def rotate (val : UInt64) (shift : UInt64) : UInt64 :=
  if shift = 0 then val else val >>> shift ||| val <<< (64 - shift)

def shiftMix (val : UInt64) : UInt64 := val ^^^ (val >>> 47)

def hashLen16 (u v mul : UInt64) : UInt64 :=
  let a := shiftMix ((u ^^^ v) * mul)
  let b := shiftMix ((v ^^^ a) * mul)
  b * mul

def hash128to64 (u v : UInt64) : UInt64 := hashLen16 u v 0x9ddfea08eb382d69

def hashLen0to16 (s : List UInt8) : UInt64 :=
  let len := UInt64.ofNat s.length
  if s.length ≥ 8 then
    let mul := k2 + len * 2
    let a := fetch64 s 0 + k2
    let b := fetch64 s (s.length - 8)
    let c := rotate b 37 * mul + a
    let d := (rotate a 25 + b) * mul
    hashLen16 c d mul
  else if s.length ≥ 4 then
    let mul := k2 + len * 2
    let a := fetch32 s 0
    hashLen16 (len + a <<< 3) (fetch32 s (s.length - 4)) mul
  else if s.length > 0 then
    let a := fetch 1 s 0
    let b := fetch 1 s (s.length / 2)
    let c := fetch 1 s (s.length - 1)
    let y := a + b <<< 8
    let z := len + c <<< 2
    shiftMix (y * k2 ^^^ z * k0) * k2
  else k2

def hashLen17to32 (s : List UInt8) : UInt64 :=
  let mul := k2 + UInt64.ofNat s.length * 2
  let a := fetch64 s 0 * k1
  let b := fetch64 s 8
  let c := fetch64 s (s.length - 8) * mul
  let d := fetch64 s (s.length - 16) * k2
  hashLen16 (rotate (a + b) 43 + rotate c 30 + d) (a + rotate (b + k2) 18 + c) mul

def weakHashLen32WithSeeds (s : List UInt8) (i : Nat) (a b : UInt64) : UInt64 × UInt64 :=
  let z := fetch64 s (i + 24)
  let a := a + fetch64 s i
  let b := rotate (b + a + z) 21
  let c := a
  let a := a + fetch64 s (i + 8) + fetch64 s (i + 16)
  let b := b + rotate a 44
  (a + z,b + c)

def hashLen33to64 (s : List UInt8) : UInt64 :=
  let len := s.length
  let mul := k2 + UInt64.ofNat len * 2
  let a := fetch64 s 0 * k2
  let b := fetch64 s 8
  let c := fetch64 s (len - 24)
  let d := fetch64 s (len - 32)
  let e := fetch64 s 16 * k2
  let f := fetch64 s 24 * 9
  let g := fetch64 s (len - 8)
  let h := fetch64 s (len - 16) * mul
  let u := rotate (a + g) 43 + (rotate b 30 + c) * 9
  let v := ((a + g) ^^^ d) + f + 1
  let w := bswap64 ((u + v) * mul) + h
  let x := rotate (e + f) 42 + c
  let y := (bswap64 ((v + w) * mul) + g) * mul
  let z := e + f + c
  let a := bswap64 ((x + z) * mul + y) + b
  let b := shiftMix ((z + a) * mul + d + h) * mul
  b + x

structure ChunkState where
  x : UInt64
  y : UInt64
  z : UInt64
  v : UInt64 × UInt64
  w : UInt64 × UInt64

def hashChunk (s : List UInt8) (st : ChunkState) : ChunkState :=
  let x := rotate (st.x + st.y + st.v.1 + fetch64 s 8) 37 * k1
  let y := rotate (st.y + st.v.2 + fetch64 s 48) 42 * k1
  let x := x ^^^ st.w.2
  let y := y + (st.v.1 + fetch64 s 40)
  let z := rotate (st.z + st.w.1) 33 * k1
  let v := weakHashLen32WithSeeds s 0 (st.v.2 * k1) (x + st.w.1)
  let w := weakHashLen32WithSeeds s 32 (z + st.w.2) (y + fetch64 s 16)
  ⟨z,y,x,v,w⟩

def hashChunks : Nat → List UInt8 → ChunkState → ChunkState
  | 0, _, st => st
  | n + 1, s, st => hashChunks n (s.drop 64) (hashChunk s st)

def cityHash64 (s : List UInt8) : UInt64 :=
  let len := s.length
  if len ≤ 16 then hashLen0to16 s
  else if len ≤ 32 then hashLen17to32 s
  else if len ≤ 64 then hashLen33to64 s
  else
    let x := fetch64 s (len - 40)
    let y := fetch64 s (len - 16) + fetch64 s (len - 56)
    let z := hash128to64 (fetch64 s (len - 48) + UInt64.ofNat len) (fetch64 s (len - 24))
    let v := weakHashLen32WithSeeds s (len - 64) (UInt64.ofNat len) z
    let w := weakHashLen32WithSeeds s (len - 32) (y + k1) x
    let st := hashChunks ((len - 1) / 64) s ⟨x * k1 + fetch64 s 0,y,z,v,w⟩
    hash128to64 (hash128to64 st.v.1 st.w.1 + shiftMix st.y * k1 + st.z)
      (hash128to64 st.v.2 st.w.2 + st.x)

def cityHash64WithSeed (s : List UInt8) (seed : UInt64) : UInt64 :=
  hash128to64 (cityHash64 s - k2) seed

end CityHash

/-- A name after `wireDecode`, with the octets that it came in. -/
structure DecodedName where
  wire : Element
  components : EncodedName
  hasWire : wire.hasWire = true
  type_eq : wire.type = TlvType.name
  parsed : EncodedName.ofElement wire = .ok components

structure NameHashes where
  hashRange : List UInt8 → UInt64
  compute : List UInt8 → NameTree.HashValue
  cityHash64WithSeed : List UInt8 → UInt64 → UInt64

namespace DecodedName

def octets (n : DecodedName) : List UInt8 := n.wire.octets

def toName (n : DecodedName) : Name := n.components.toName

def equals (n m : DecodedName) : Bool := EncodedName.equals n.components m.components

def Shortest (n : DecodedName) : Prop :=
  n.octets = n.wire.toBlock.encode ∧ ∀ c ∈ n.components, c.octets = c.toBlock.encode

section Tables

variable (hashes : NameHashes)

def hash (n : DecodedName) : UInt64 := hashes.hashRange n.octets

def computeHash (n : DecodedName) (prefixLen : Nat) : NameTree.HashValue :=
  (n.components.take prefixLen).foldl (fun h comp => h ^^^ hashes.compute comp.octets) 0

def computeHashes (n : DecodedName) (prefixLen : Nat) : List NameTree.HashValue :=
  (n.components.take prefixLen).scanl (fun h comp => h ^^^ hashes.compute comp.octets) 0

def find (buckets : List (List (NameTree.HashValue × EncodedName))) (n : DecodedName)
    (prefixLen : Nat) : Option (NameTree.HashValue × EncodedName) :=
  let h := n.computeHash hashes prefixLen
  (buckets[h.toNat % buckets.length]?.getD []).find? fun node =>
    node.1 = h && EncodedName.compare (n.components.take prefixLen) node.2 = some 0

def makeEntry (n : DecodedName) (nonce : Nonce) : UInt64 :=
  hashes.cityHash64WithSeed n.octets (CityHash.fetch32 nonce 0)

def isDead (d : DeadNonceList) (n : DecodedName) (nonce : Nonce) : Bool :=
  d.queue.any fun x => x.entry = n.makeEntry hashes nonce

/-- No table tells the names apart. -/
structure Alike (n m : DecodedName) : Prop where
  hash_eq : n.hash hashes = m.hash hashes
  computeHashes_eq : ∀ prefixLen, n.computeHashes hashes prefixLen = m.computeHashes hashes prefixLen
  find_eq : ∀ buckets prefixLen, find hashes buckets n prefixLen = find hashes buckets m prefixLen
  isDead_eq : ∀ d nonce, isDead hashes d n nonce = isDead hashes d m nonce

end Tables

section Octets

variable {n m : DecodedName}

theorem value_eq (n : DecodedName) : n.wire.value = Element.allOctets n.components.elements :=
  (Element.parse_eq_ok.mp (ofElement_eq_ok.mp n.parsed)).2.symm

theorem components_eq_iff : n.components = m.components ↔ n.wire.value = m.wire.value := by
  constructor
  · intro h
    rw [value_eq,value_eq,h]
  · intro h
    have hn := ofElement_eq_ok.mp n.parsed
    rw [h,← ofElement_eq_ok,m.parsed] at hn
    exact (Except.ok.inj hn).symm

theorem eq_of_octets (h : n.octets = m.octets) : n = m := by
  have hfront : ∀ k : DecodedName, k.wire.IsFront k.octets := by
    intro k
    obtain ⟨wire,hwire⟩ := Option.isSome_iff_exists.mp k.hasWire
    exact ⟨wire,[],hwire,by rw [octets,Element.octets_of_wire hwire,append_nil]⟩
  have hwire : n.wire = m.wire := (hfront n).unique (h ▸ hfront m)
  have hcomponents := components_eq_iff.mpr (congrArg (fun e => e.value) hwire)
  cases n
  cases m
  cases hwire
  cases hcomponents
  rfl

theorem Shortest.octets_eq (h : n.Shortest) : n.octets = n.toName.wireEncode := by
  have hvalue : n.wire.value = n.toName.flatMap fun c => Block.encode ⟨c.type,c.value⟩ := by
    rw [value_eq,Element.allOctets,EncodedName.elements,toName,EncodedName.toName,
      flatMap_map,flatMap_map]
    exact flatMap_congr h.2
  rw [h.1,Name.wireEncode,← hvalue]
  exact congrArg (fun type => Block.encode ⟨type,n.wire.value⟩) n.type_eq

end Octets

section Separation

variable {α : Type*} {x y : List α}

theorem map_eq_of_foldl {f : α → UInt64} (hlen : x.length = y.length)
    (h : ∀ i ≤ x.length,
      (x.take i).foldl (fun h c => h ^^^ f c) 0 = (y.take i).foldl (fun h c => h ^^^ f c) 0) :
    x.map f = y.map f := by
  apply ext_getElem (by simpa using hlen)
  intro i hi hi'
  rw [length_map] at hi hi'
  have hnext := h (i + 1) hi
  rw [take_succ_eq_append_getElem hi,take_succ_eq_append_getElem hi',foldl_append,
    foldl_append,h i hi.le] at hnext
  rw [getElem_map,getElem_map]
  exact (UInt64.xor_right_inj _).mp hnext

theorem eq_of_forall_map [DecidableEq α] (h : ∀ f : α → UInt64, x.map f = y.map f) : x = y := by
  have hlen : x.length = y.length := by simpa using congrArg List.length (h fun _ => 0)
  apply ext_getElem hlen
  intro i hi hi'
  have hget := getElem_of_eq (h fun b => if b = x[i] then 1 else 0) (by simpa using hi)
  simp only [getElem_map,if_true] at hget
  by_contra hne
  rw [if_neg (Ne.symm hne)] at hget
  exact absurd hget (by decide)

end Separation

section Main

variable {n m : DecodedName}

theorem length_of_equals (h : n.equals m = true) : n.components.length = m.components.length := by
  have hname := equals_iff.mp h
  simpa [EncodedName.toName] using congrArg List.length hname

/-- Hashes that agree for every hash function come from the same octets. -/
theorem value_eq_of_computeHash (h : n.equals m = true)
    (hhash : ∀ hashes, ∀ i ≤ n.components.length, n.computeHash hashes i = m.computeHash hashes i) :
    n.wire.value = m.wire.value := by
  have hoctets : n.components.map (fun c => c.octets) = m.components.map fun c => c.octets := by
    apply eq_of_forall_map
    intro f
    rw [map_map,map_map]
    exact map_eq_of_foldl (length_of_equals h) (hhash ⟨f,f,fun _ _ => 0⟩)
  rw [value_eq,value_eq,Element.allOctets,Element.allOctets,EncodedName.elements,
    EncodedName.elements,flatMap_map,flatMap_map,flatMap_def,flatMap_def,hoctets]

theorem computeHashes_getElem? (hashes : NameHashes) {i : Nat} (h : i ≤ n.components.length) :
    (n.computeHashes hashes n.components.length)[i]? = some (n.computeHash hashes i) := by
  unfold computeHashes computeHash
  rw [getElem?_eq_getElem (by rw [length_scanl,length_take]; omega),
    getElem_scanl,take_take,min_eq_left h]

theorem compare_self (c : EncodedName) : EncodedName.compare c c = some 0 := by
  have hoctets : ∀ x : List UInt8, compareFront octetDifference x x = some 0 := by
    intro x
    have happend := compareFront_append_self octetDifference_self x [] []
    rwa [append_nil] at happend
  have hcomponent : ∀ a : EncodedComponent, a.compare a = some 0 := by
    intro a
    unfold EncodedComponent.compare
    cases a.wire with
    | none => simp [memcmp,hoctets,EncodedComponent.toInt]
    | some data => simp [memcmp,hoctets]
  have hcomponents := compareFront_append_self hcomponent c [] []
  rw [append_nil] at hcomponents
  simp [EncodedName.compare,hcomponents,compareFront,EncodedComponent.toInt]

theorem computeHash_of_find {hashes : NameHashes} {i : Nat}
    (h : ∀ buckets, find hashes buckets n i = find hashes buckets m i) :
    n.computeHash hashes i = m.computeHash hashes i := by
  let node := (n.computeHash hashes i,n.components.take i)
  have hn : find hashes [[node]] n i = some node := by
    simp [find,node,compare_self,Nat.mod_one]
  rw [h] at hn
  have hmatch := find?_some hn
  rw [Bool.and_eq_true] at hmatch
  exact of_decide_eq_true hmatch.1

theorem octets_eq_of_isDead
    (h : ∀ hashes d nonce, isDead hashes d n nonce = isDead hashes d m nonce) :
    n.octets = m.octets := by
  let hashes : NameHashes :=
    ⟨fun _ => 0,fun _ => 0,fun octets _ => if octets = n.octets then 1 else 0⟩
  have hdead := h hashes ⟨[⟨1,0⟩],DeadNonceList.initialCapacity,[],1,[]⟩ []
  simp only [isDead,makeEntry,hashes,any_cons,any_nil,if_true] at hdead
  by_contra hne
  simp [Ne.symm hne] at hdead

/-- Equal names are alike for every choice of hash functions exactly if they came in the same
octets. In the name tree the octets of the components count, and lookups depend on them. Names with
all types and lengths in their shortest form are in the same octets. -/
theorem alike_iff (n m : DecodedName) (h : n.equals m = true) :
    ((∀ hashes, Alike hashes n m) ↔ n.octets = m.octets) ∧
    ((∀ hashes prefixLen, n.computeHashes hashes prefixLen = m.computeHashes hashes prefixLen) ↔
      n.wire.value = m.wire.value) ∧
    ((∀ hashes buckets prefixLen, find hashes buckets n prefixLen = find hashes buckets m prefixLen) ↔
      n.wire.value = m.wire.value) ∧
    ((∀ hashes d nonce, isDead hashes d n nonce = isDead hashes d m nonce) ↔ n.octets = m.octets) ∧
    (n.Shortest → m.Shortest → n.octets = m.octets) := by
  have hlen := length_of_equals h
  have hsame : n.octets = m.octets → ∀ hashes, Alike hashes n m := by
    intro hoctets hashes
    obtain rfl := eq_of_octets hoctets
    exact ⟨rfl,fun _ => rfl,fun _ _ => rfl,fun _ _ => rfl⟩
  refine ⟨⟨fun halike => ?_,hsame⟩,⟨fun hhashes => ?_,fun hvalue hashes prefixLen => ?_⟩,
    ⟨fun hfind => ?_,fun hvalue hashes buckets prefixLen => ?_⟩,
    ⟨octets_eq_of_isDead,fun hoctets hashes => (hsame hoctets hashes).isDead_eq⟩,
    fun hn hm => ?_⟩
  · exact octets_eq_of_isDead fun hashes => (halike hashes).isDead_eq
  · apply value_eq_of_computeHash h
    intro hashes i hi
    have hn := computeHashes_getElem? hashes hi
    have hm := computeHashes_getElem? hashes (hlen ▸ hi)
    rw [hhashes,hlen] at hn
    exact Option.some.inj (hn.symm.trans hm)
  · rw [computeHashes,computeHashes,components_eq_iff.mpr hvalue]
  · exact value_eq_of_computeHash h fun hashes i _ =>
      computeHash_of_find fun buckets => hfind hashes buckets i
  · unfold find computeHash
    rw [components_eq_iff.mpr hvalue]
  · rw [hn.octets_eq,hm.octets_eq,toName,toName,equals_iff.mp h]

def shortName : DecodedName where
  wire := .encoded ⟨7,[0x08,0x01,0x41]⟩ (by decide)
  components := [shortA]
  hasWire := rfl
  type_eq := rfl
  parsed := ofElement_eq_ok.mpr (by decide +kernel)

def longName : DecodedName where
  wire := .encoded ⟨7,[0xFD,0x00,0x08,0x01,0x41]⟩ (by decide)
  components := [longA]
  hasWire := rfl
  type_eq := rfl
  parsed := ofElement_eq_ok.mpr (by decide +kernel)

theorem alike_iff_shortName :
    shortName.equals longName = true ∧ ¬∀ hashes, Alike hashes shortName longName := by
  have h : shortName.equals longName = true := by decide +kernel
  exact ⟨h,fun halike => absurd ((alike_iff shortName longName h).1.mp halike) (by decide)⟩

def cityHashes : NameHashes where
  hashRange _ := 0
  compute := CityHash.cityHash64
  cityHash64WithSeed := CityHash.cityHash64WithSeed

def shortDead (nonce : Nonce) : DeadNonceList :=
  DeadNonceList.pushBack ⟨[],DeadNonceList.initialCapacity,[],0,[]⟩
    (shortName.makeEntry cityHashes nonce)

/-- With `CityHash64` the equal names have different hashes. The node that one of them was inserted
with is not found by the other, and a nonce that is dead for one is not for the other. -/
theorem longName_not_alike : Element.ofSpan [0x07,0x03,0x08,0x01,0x41] = .ok shortName.wire ∧
      Element.ofSpan [0x07,0x05,0xFD,0x00,0x08,0x01,0x41] = .ok longName.wire ∧
      shortName.equals longName = true ∧
      shortName.computeHashes cityHashes 1 ≠ longName.computeHashes cityHashes 1 ∧
      find cityHashes [[(shortName.computeHash cityHashes 1,[shortA])]] shortName 1 ≠ none ∧
      find cityHashes [[(shortName.computeHash cityHashes 1,[shortA])]] longName 1 = none ∧
      isDead cityHashes (shortDead [1,2,3,4]) shortName [1,2,3,4] = true ∧
      isDead cityHashes (shortDead [1,2,3,4]) longName [1,2,3,4] = false := by
  decide +kernel

end Main

end DecodedName

end KiteNdn
