import KiteNdn.Packet.Data

/-!
# Signing Data packets

The key chain encodes the packet up to the signature information, signs these octets, and writes the
signature value behind them. The packet is then decoded again from what was written.
-/

namespace KiteNdn.Packet

open Tlv Encoding Option List

/-- The key that an identity signs with. The locator is the name of its certificate, or its own. -/
structure SigningKey where
  signatureType : UInt16
  locator : EncodedName
  sign : List UInt8 → List UInt8

def SigningKey.signatureInfo (key : SigningKey) : SignatureInfo where
  type := some key.signatureType
  keyLocator := some (.name key.locator)

structure DataDraft where
  name : Name
  metaInfo : MetaInfo := {}
  content : Option Element := none

namespace DataDraft

section Signing

def unsignedItems (d : DataDraft) (info : SignatureInfo) : Except String (List Item) :=
  (info.item .data).map fun info =>
    Name.item d.name :: d.metaInfo.item :: (d.content.toList.map .block ++ [info])

def appendSignature (signature : List UInt8) (encoder : Encoder) : Encoder :=
  let type := encoder.appendVarNumber TlvType.signatureValue
  let length := type.2.appendVarNumber signature.length
  let value := length.2.appendBytes signature
  let totalLength := encoder.content.length + type.1 + length.1 + value.1
  (encodingBuffer.prependTypeLength TlvType.data (totalLength,value.2)).2

def sign (key : SigningKey) (d : DataDraft) : Except String Data :=
  (d.unsignedItems key.signatureInfo).bind fun items =>
    let encoder := (encodingBuffer.prependItems items (.make 8800 400)).2
    let octets := (appendSignature (key.sign encoder.content) encoder).content
    if octets.length < 2^64 then (Element.ofRange octets).bind Data.wireDecode
    else .error "std::bad_alloc"

private theorem content_prependTypeLength {encoder : Encoder} {octets : List UInt8}
    (h : encoder.content = octets) (type : Nat) :
    (encodingBuffer.prependTypeLength type (octets.length,encoder)).2.content =
      Block.encode ⟨type,octets⟩ := by
  have hwritten := (encodingBuffer_accounts.prependTypeLength (s := .make 0 0)
    (r := (octets.length,encoder)) ⟨rfl,by rw [Encoder.content_make,append_nil]; exact h⟩ type).2
  rwa [Encoder.content_make,append_nil] at hwritten

theorem content_appendSignature (signature : List UInt8) (encoder : Encoder) :
    (appendSignature signature encoder).content = Block.encode
      ⟨TlvType.data,encoder.content ++ Block.encode ⟨TlvType.signatureValue,signature⟩⟩ := by
  obtain ⟨htype,htype'⟩ := encoder.appendVarNumber_spec TlvType.signatureValue
  obtain ⟨hlength,hlength'⟩ := (encoder.appendVarNumber TlvType.signatureValue).2.appendVarNumber_spec
    signature.length
  have hvalue := ((encoder.appendVarNumber TlvType.signatureValue).2.appendVarNumber
    signature.length).2.content_appendBytes signature
  rw [hlength',htype',append_assoc,append_assoc,← append_assoc (writeVarNumber _)]
    at hvalue
  have hsize : encoder.content.length + sizeOfVarNumber TlvType.signatureValue +
      sizeOfVarNumber signature.length + signature.length =
        (encoder.content ++ Block.encode ⟨TlvType.signatureValue,signature⟩).length := by
    rw [length_append,show (Block.encode _).length = Block.size _ from rfl,Block.size_eq]
    dsimp only
    omega
  unfold appendSignature
  dsimp only
  rw [htype,hlength,show (Encoder.appendBytes signature _).1 = signature.length from rfl,hsize]
  exact content_prependTypeLength hvalue TlvType.data

end Signing

section Decoding

variable (key : SigningKey) (d : DataDraft)

def infoItem : Item :=
  .nested TlvType.signatureInfo [.nonNegativeInteger TlvType.signatureType key.signatureType.toNat,
    .nested TlvType.keyLocator [key.locator.item]]

def items : List Item :=
  Name.item d.name :: d.metaInfo.item :: (d.content.toList.map .block ++ [infoItem key])

def portion : List UInt8 := Item.allOctets (d.items key)

def signatureItem : Item := .binary TlvType.signatureValue (key.sign (d.portion key))

def signedBlock : Block := ⟨TlvType.data,Item.allOctets (d.items key ++ [d.signatureItem key])⟩

theorem sign_eq : d.sign key =
    if (d.signedBlock key).encode.length < 2^64 then Data.wireDecode (.ofBlock (d.signedBlock key))
    else .error "std::bad_alloc" := by
  have hitems : d.unsignedItems key.signatureInfo = .ok (d.items key) := rfl
  have hportion := (encodingBuffer_accounts.prependItems (d.items key) (.make 8800 400)).2
  rw [Encoder.content_make,append_nil] at hportion
  have hblock : d.signedBlock key = ⟨TlvType.data,Item.allOctets (d.items key) ++
      Block.encode ⟨TlvType.signatureValue,key.sign (Item.allOctets (d.items key))⟩⟩ := by
    rw [signedBlock,Item.allOctets_append,signatureItem,Item.allOctets,Item.allOctets,
      append_nil,Item.octets]
    rfl
  rw [sign,hitems,Except.bind]
  dsimp only
  rw [content_appendSignature,hportion,← hblock]
  split_ifs with hlen
  · have hvalid := Block.valid_of_length (b := d.signedBlock key) (by decide : 0 < TlvType.data)
      (by decide : TlvType.data < 2^32) hlen
    rw [Element.ofRange_eq_ok.mpr ((Element.wire_eq_octets
      ((Element.hasWire_ofBlock _).mpr hvalid)).trans (by rw [Element.octets_ofBlock]))]
    rfl
  · rfl

variable {key d}

theorem length_content_le (name : Name) (metaInfo : MetaInfo) (b : Block) :
    b.encode.length ≤ (signedBlock key ⟨name,metaInfo,some (.ofBlock b)⟩).encode.length := by
  have hle := Item.length_octets_le (show Item.block (.ofBlock b) ∈
    items key ⟨name,metaInfo,some (.ofBlock b)⟩ ++
      [signatureItem key ⟨name,metaInfo,some (.ofBlock b)⟩] by simp [items])
  rw [Item.octets,Element.octets_ofBlock] at hle
  exact hle.trans (signedBlock key ⟨name,metaInfo,some (.ofBlock b)⟩).length_value_le

variable {metaInfo : MetaInfo}

theorem sign_written {name : Name} (b : Block) {r : Data} :
    ((Encoding.Tree.node TlvType.content [.leaf (.ofBlock b)]).write.bind fun content =>
      sign key ⟨name,metaInfo,some content⟩) = .ok r ↔
    (signedBlock key ⟨name,metaInfo,some (.ofBlock ⟨TlvType.content,b.encode⟩)⟩).encode.length < 2^64 ∧
      Data.wireDecode (.ofBlock (signedBlock key
        ⟨name,metaInfo,some (.ofBlock ⟨TlvType.content,b.encode⟩)⟩)) = .ok r := by
  have hwrite := @Tree.write_leaf TlvType.content (by decide) (by decide) b
  have hle := @length_content_le key name metaInfo ⟨TlvType.content,b.encode⟩
  cases hcontent : (Encoding.Tree.node TlvType.content [.leaf (.ofBlock b)]).write with
  | error message =>
    refine iff_of_false (fun h => nomatch h) (fun h => ?_)
    have hok := hwrite.mpr ⟨hle.trans_lt h.1,rfl⟩
    rw [hcontent] at hok
    exact nomatch hok
  | ok content =>
    obtain ⟨_,rfl⟩ := hwrite.mp hcontent
    show sign key _ = .ok r ↔ _
    rw [sign_eq]
    split_ifs with hlen
    · exact (and_iff_right hlen).symm
    · exact iff_of_false (fun h => nomatch h) (fun h => hlen h.1)

private theorem wireDecode_metaInfo {type : UInt32}
    (h : (MetaInfo.item { type := type }).element.hasWire = true) :
    MetaInfo.wireDecode (MetaInfo.item { type := type }).element {} =
      .ok { type := type, wire := some (MetaInfo.item { type := type }).element } :=
  MetaInfo.wireDecode_item ⟨by simp,by simp,rfl⟩ h {}

private theorem ofElement_infoItem (key : SigningKey) (h : (infoItem key).element.hasWire = true) :
    ∃ info, SignatureInfo.ofElement (infoItem key).element .data = .ok info ∧
      info.type = some key.signatureType := by
  have hsound : key.signatureInfo.IsSound :=
    ⟨fun _ hl => mem_some_iff.mp hl ▸ trivial,by simp [SigningKey.signatureInfo]⟩
  have hitem : key.signatureInfo.item .data = .ok (infoItem key) := rfl
  obtain ⟨info,hok,hvalue⟩ := hsound.ofElement_item hitem h
  exact ⟨info,hok,congrArg Prod.fst hvalue⟩

private theorem wireDecode_elements {wire nameElement metaElement content infoElement value : Element}
    {name : EncodedName} {info : SignatureInfo}
    (hwire : wire.type = TlvType.data) (hparse : Element.parse wire.value =
      .ok [nameElement,metaElement,content,infoElement,value])
    (htypes : nameElement.type = TlvType.name ∧ metaElement.type = TlvType.metaInfo ∧
      content.type = TlvType.content ∧ infoElement.type = TlvType.signatureInfo ∧
      value.type = TlvType.signatureValue)
    (hname : EncodedName.ofElement nameElement = .ok name)
    (hmeta : MetaInfo.wireDecode metaElement {} = .ok metaInfo)
    (hinfo : SignatureInfo.ofElement infoElement .data = .ok info) (hsigned : info.type ≠ none) :
    Data.wireDecode wire = .ok { name, metaInfo, content := some content, signatureInfo := info
                                 signatureValue := some value, wire := some wire } := by
  obtain ⟨hn,hm,hc,hi,hv⟩ := htypes
  rw [Data.wireDecode,if_neg (not_not.mpr hwire),hparse]
  dsimp only
  rw [if_neg (not_not.mpr hn),hname]
  dsimp only
  have hfold : [metaElement,content,infoElement,value].foldlM Data.decodeElement
      ({ name := name },1) = .ok ({ name, metaInfo, content := some content, signatureInfo := info
                                    signatureValue := some value },5) := by
    simp [Data.decodeElement,hm,hc,hi,hv,hmeta,hinfo,bind,Except.bind,Except.map,pure,Except.pure]
  rw [hfold]
  dsimp only
  rw [if_neg hsigned,if_neg (some_ne_none value)]

theorem wireDecode_signedBlock {name : Name} {type : UInt32} {content : Element}
    (htyped : name.WellTyped) (hcontent : content.type = TlvType.content)
    (hwire : content.hasWire = true)
    (hlen : (signedBlock key ⟨name,{ type := type },some content⟩).encode.length < 2^64) :
    ∃ d, Data.wireDecode (.ofBlock (signedBlock key ⟨name,{ type := type },some content⟩)) = .ok d ∧
      d.name.toName = name ∧ d.metaInfo.type = type ∧ d.content = some content ∧
      d.wire = some (.ofBlock (signedBlock key ⟨name,{ type := type },some content⟩)) := by
  have hhas : (Item.nested TlvType.data (items key ⟨name,{ type := type },some content⟩ ++
      [signatureItem key ⟨name,{ type := type },some content⟩])).element.hasWire = true :=
    (Element.hasWire_ofBlock _).mpr (Block.valid_of_length (by decide : 0 < TlvType.data)
      (by decide : TlvType.data < 2^32) hlen)
  obtain ⟨hparse,hall⟩ := Item.parse_nested hhas (by
    simp [Item.WellTyped,items,infoItem,signatureItem,Name.item,MetaInfo.item,Item.type,hcontent,
      TlvType.name,TlvType.metaInfo,TlvType.content,TlvType.signatureInfo,TlvType.signatureValue])
  obtain ⟨m,hname,hm⟩ := EncodedName.ofElement_nameItem htyped
    (hall (Name.item name) (by simp [items]))
  have hmeta := wireDecode_metaInfo (hall (MetaInfo.item { type := type }) (by simp [items]))
  obtain ⟨info,hinfo,hsigned⟩ := ofElement_infoItem key (hall (infoItem key) (by simp [items]))
  have hblock : (Item.block content).element = content := by rw [Item.element,if_pos hwire]
  have hdecode := wireDecode_elements (Item.type_element _) hparse
    ⟨Item.type_element _,Item.type_element _,by rw [hblock]; exact hcontent,Item.type_element _,
      Item.type_element _⟩ hname hmeta hinfo (by rw [hsigned]; exact some_ne_none _)
  exact ⟨_,hdecode,hm,rfl,congrArg some hblock,rfl⟩

end Decoding

end DataDraft

end KiteNdn.Packet
