import HideProtocol.Conformance.Verify
import HideProtocol.Format.CodecTheorems

/-!
# The same rules, checked afterwards

The Rust codec reads a header field by field and holds each field to its limit as it goes; the
independent reader decodes first and checks the values. Each check accepts exactly the items of
the values that the codec can write, and the re-encoding of such an item is what the codec writes.
-/

namespace HideProtocol.Conformance

open Lib Format
open Cbor (Item)

@[simp] theorem need_eq_ok {condition : Prop} [Decidable condition] {code : Code} {detail : String}
    {u : Unit} : need condition code detail = .ok u ↔ condition := by
  rw [need, failIf_eq_ok, not_not]

theorem need_pos {condition : Prop} [Decidable condition] {code : Code} {detail : String}
    (h : condition) : need condition code detail = .ok () := need_eq_ok.mpr h

/-! ## Re-encoding -/

/-- The bytes that an item is encoded to and decoded from. -/
def Canonical (depth : ℕ) (item : Item) (bytes : Bytes) : Prop :=
  encodeCbor item = .ok bytes ∧ Cbor.Encodes depth item bytes

theorem cborHead_eq_ok {major n : ℕ} (h : n < 2 ^ 64) :
    cborHead major n = .ok (Cbor.head major n) := if_pos h

theorem canonical_uint {n : ℕ} (h : n < 2 ^ 64) (depth : ℕ) :
    Canonical depth (.uint n) (Cbor.uint n) := by
  refine ⟨?_, ?_⟩
  · rw [encodeCbor, cborHead_eq_ok h]
    rfl
  · cases depth <;> exact ⟨h, rfl⟩

theorem canonical_bytes {content : Bytes} (h : content.length < 2 ^ 64) (depth : ℕ) :
    Canonical depth (.bytes content) (Cbor.bytes content) := by
  refine ⟨?_, ?_⟩
  · rw [encodeCbor, cborHead_eq_ok h]
    rfl
  · cases depth <;> exact ⟨h, rfl⟩

theorem canonical_text {content : String} (h : (utf8 content).length < 2 ^ 64) (depth : ℕ) :
    Canonical depth (.text content) (Cbor.str content) := by
  refine ⟨?_, ?_⟩
  · rw [encodeCbor, cborHead_eq_ok h]
    rfl
  · cases depth <;> exact ⟨h, rfl⟩

section
variable {α : Type} {depth : ℕ} {f : α → Item} {g : α → Bytes} {xs : List α}

theorem encodeItems_map (h : ∀ x ∈ xs, encodeCbor (f x) = .ok (g x)) :
    encodeItems (xs.map f) = .ok (xs.map g) := by
  induction xs with
  | nil => rfl
  | cons x xs ih =>
    have hx := h x List.mem_cons_self
    have hxs := ih fun y hy => h y (List.mem_cons_of_mem _ hy)
    rw [List.map_cons, encodeItems, hx, ok_bind, hxs]
    rfl

theorem canonical_array (hlen : xs.length < 2 ^ 64)
    (h : ∀ x ∈ xs, Canonical depth (f x) (g x)) :
    Canonical (depth + 1) (.array (xs.map f)) (Cbor.array xs.length ++ xs.flatMap g) := by
  have hlen' : (xs.map f).length < 2 ^ 64 := by rwa [List.length_map]
  refine ⟨?_, hlen', xs.map g, ?_, ?_⟩
  · rw [encodeCbor, cborHead_eq_ok hlen', ok_bind, encodeItems_map fun x hx => (h x hx).1]
    show Except.ok _ = _
    rw [List.length_map, List.flatMap_def]
    rfl
  · rw [List.forall₂_map_left_iff, List.forall₂_map_right_iff, List.forall₂_same]
    exact fun x hx => (h x hx).2
  · rw [List.length_map, List.flatMap_def]

/-! ### Maps with ascending keys -/

theorem cons_le_cons_of_lt {x y : ℕ} (h : x % 256 < y % 256) (xs ys : Bytes) :
    UInt8.ofNat x :: xs ≤ UInt8.ofNat y :: ys := by
  apply List.cons_le_cons_iff.mpr
  left
  rw [UInt8.lt_iff_toNat_lt, UInt8.toNat_ofNat', UInt8.toNat_ofNat']
  exact h

theorem cons_le_cons_of_le (x : UInt8) {xs ys : Bytes} (h : xs ≤ ys) : x :: xs ≤ x :: ys :=
  List.cons_le_cons_iff.mpr (Or.inr ⟨rfl, h⟩)

/-- Big-endian numbers of two bytes compare as numbers. -/
theorem beBytes_two_le {a b : ℕ} (h : a < b) (hb : b < 65536) : beBytes 2 a ≤ beBytes 2 b := by
  show [UInt8.ofNat (a / 256), UInt8.ofNat a] ≤ [UInt8.ofNat (b / 256), UInt8.ofNat b]
  by_cases hhigh : a / 256 < b / 256
  · exact cons_le_cons_of_lt (by omega) _ _
  · have heq : a / 256 = b / 256 := by omega
    rw [heq]
    exact cons_le_cons_of_le _ (cons_le_cons_of_lt (by omega) _ _)

theorem uint_of_lt_24 {n : ℕ} (h : n < 24) : Cbor.uint n = [UInt8.ofNat n] := by
  rw [Cbor.uint, Cbor.head, if_pos h, Nat.zero_mul, Nat.zero_add]

theorem uint_of_lt_256 {n : ℕ} (h : 24 ≤ n) (hlt : n < 256) :
    Cbor.uint n = [UInt8.ofNat 24, UInt8.ofNat n] := by
  rw [Cbor.uint, Cbor.head, if_neg (by omega), if_pos (by omega)]
  rfl

theorem uint_of_lt_65536 {n : ℕ} (h : 256 ≤ n) (hlt : n < 65536) :
    Cbor.uint n = UInt8.ofNat 25 :: beBytes 2 n := by
  rw [Cbor.uint, Cbor.head, if_neg (by omega), if_neg (by omega), if_pos (by omega)]

/-- A longer head starts with a larger byte, and heads of one length compare as numbers. -/
theorem uint_le_uint {a b : ℕ} (h : a < b) (hb : b < 65536) : Cbor.uint a ≤ Cbor.uint b := by
  by_cases hb24 : b < 24
  · rw [uint_of_lt_24 (h.trans hb24), uint_of_lt_24 hb24]
    exact cons_le_cons_of_lt (by omega) _ _
  by_cases ha24 : a < 24
  · rw [uint_of_lt_24 ha24]
    by_cases hb256 : b < 256
    · rw [uint_of_lt_256 (by omega) hb256]
      exact cons_le_cons_of_lt (by omega) _ _
    · rw [uint_of_lt_65536 (by omega) hb]
      exact cons_le_cons_of_lt (by omega) _ _
  by_cases ha256 : a < 256
  · rw [uint_of_lt_256 (by omega) ha256]
    by_cases hb256 : b < 256
    · rw [uint_of_lt_256 (by omega) hb256]
      exact cons_le_cons_of_le _ (cons_le_cons_of_lt (by omega) _ _)
    · rw [uint_of_lt_65536 (by omega) hb]
      exact cons_le_cons_of_lt (by omega) _ _
  · rw [uint_of_lt_65536 (by omega) (h.trans hb), uint_of_lt_65536 (by omega) hb]
    exact cons_le_cons_of_le _ (beBytes_two_le h hb)

end

/-- A map entry with an integer key, and the bytes of its value. -/
structure Field where
  key : ℕ
  item : Item
  bytes : Bytes

def Field.entry (field : Field) : Item × Item := (.uint field.key, field.item)

def Field.wire (field : Field) : Bytes := Cbor.uint field.key ++ field.bytes

/-- The value is encoded to its bytes, and the key to at most three. -/
def Field.Canonical (depth : ℕ) (field : Field) : Prop :=
  field.key < 65536 ∧ Conformance.Canonical depth field.item field.bytes

theorem encodeEntries_fields {depth : ℕ} {fields : List Field}
    (h : ∀ field ∈ fields, field.Canonical depth) :
    encodeEntries (fields.map Field.entry) =
      .ok (fields.map fun field => (Cbor.uint field.key, field.bytes)) := by
  induction fields with
  | nil => rfl
  | cons field fields ih =>
    have ⟨hlt, hvalue, _⟩ := h field List.mem_cons_self
    have hrest := ih fun f hf => h f (List.mem_cons_of_mem _ hf)
    rw [List.map_cons, Field.entry, encodeEntries, (canonical_uint (by omega) depth).1, ok_bind,
      hvalue, ok_bind, hrest]
    rfl

theorem canonical_map {depth : ℕ} {fields : List Field}
    (hasc : fields.Pairwise fun a b => a.key < b.key) (hlen : fields.length < 2 ^ 64)
    (h : ∀ field ∈ fields, field.Canonical depth) :
    Canonical (depth + 1) (.map (fields.map Field.entry))
      (Cbor.map fields.length ++ fields.flatMap Field.wire) := by
  have hlen' : (fields.map Field.entry).length < 2 ^ 64 := by rwa [List.length_map]
  -- the keys ascend already, so sorting their encodings changes nothing
  have hsorted : (fields.map fun field => (Cbor.uint field.key, field.bytes)).mergeSort keyLe =
      fields.map fun field => (Cbor.uint field.key, field.bytes) := by
    apply List.mergeSort_of_pairwise
    rw [List.pairwise_map]
    apply hasc.imp_of_mem
    intro a b _ hb hlt
    exact decide_eq_true (uint_le_uint hlt (h b hb).1)
  have hnodup : ((fields.map Field.entry).map Prod.fst).Nodup := by
    rw [List.map_map, List.Nodup, List.pairwise_map]
    apply hasc.imp
    intro a b hlt heq
    have : a.key = b.key := Item.uint.inj heq
    omega
  refine ⟨?_, hlen', hnodup, fields.map Field.wire, ?_, ?_⟩
  · rw [encodeCbor, encodeEntries_fields h, ok_bind, hsorted]
    simp only []
    rw [cborHead_eq_ok (by rwa [List.length_map]), ok_bind]
    show Except.ok _ = _
    rw [List.length_map, List.flatMap_map]
    rfl
  · rw [List.forall₂_map_left_iff, List.forall₂_map_right_iff, List.forall₂_same]
    intro field hfield
    have ⟨hlt, _, hvalue⟩ := h field hfield
    exact ⟨_, _, (canonical_uint (by omega) depth).2, hvalue, rfl⟩
  · rw [List.length_map, List.flatMap_def]

/-! ## Kinds of values -/

theorem isArray_iff {item : Item} : isArray item = true ↔ ∃ items, item = .array items := by
  cases item <;> simp [isArray]

theorem isBytes_iff {item : Item} : isBytes item = true ↔ ∃ content, item = .bytes content := by
  cases item <;> simp [isBytes]

theorem isMap_iff {item : Item} : isMap item = true ↔ ∃ map, item = .map map := by
  cases item <;> simp [isMap]

theorem isInteger_iff {item : Item} : isInteger item = true ↔ ∃ n, item = .uint n := by
  cases item <;> simp [isInteger]

theorem isNumber_iff {item : Item} {n : ℕ} (h : n < 2 ^ 53) :
    isNumber item n = true ↔ item = .uint n := by
  unfold isNumber
  cases item with
  | uint m =>
    simp only [isUint, integer, Bool.and_eq_true, decide_eq_true_eq, beq_iff_eq, Item.uint.injEq]
    omega
  | _ => simp [isUint]

/-! ## Signatures -/

def signatureItem (stanza : SignatureStanza) : Item :=
  .array [.uint 1, .bytes stanza.verifyingKey, .bytes stanza.signature]

theorem checkSignatureStanza_eq_ok {item : Item} {u : Unit} :
    checkSignatureStanza item = .ok u ↔
      ∃ stanza : SignatureStanza, stanza.Valid ∧ item = signatureItem stanza := by
  rw [checkSignatureStanza, need_eq_ok]
  constructor
  · rintro ⟨harray, hlen, htag, hkey, hkeyLen, hsignature, hsignatureLen⟩
    have ⟨items, hitems⟩ := isArray_iff.mp harray
    subst hitems
    have ⟨a, b, c, habc⟩ := List.length_eq_three.mp hlen
    have habc : items = [a, b, c] := habc
    subst habc
    have htag : a = .uint 1 := (isNumber_iff (by omega)).mp htag
    have ⟨key, hkey⟩ := isBytes_iff.mp hkey
    have ⟨signature, hsignature⟩ := isBytes_iff.mp hsignature
    have hkey : b = .bytes key := hkey
    have hsignature : c = .bytes signature := hsignature
    subst htag hkey hsignature
    exact ⟨⟨key, signature⟩, ⟨hkeyLen, hsignatureLen⟩, rfl⟩
  · rintro ⟨stanza, ⟨hkey, hsignature⟩, rfl⟩
    exact ⟨rfl, rfl, rfl, rfl, hkey, rfl, hsignature⟩

theorem canonical_signature {stanza : SignatureStanza} (h : stanza.Valid) (depth : ℕ) :
    Canonical (depth + 1) (signatureItem stanza) stanza.bytes := by
  obtain ⟨hkey, hsignature⟩ := h
  have hfields : ∀ item ∈ [(Item.uint 1, Cbor.uint 1),
      (.bytes stanza.verifyingKey, Cbor.bytes stanza.verifyingKey),
      (.bytes stanza.signature, Cbor.bytes stanza.signature)],
      Canonical depth item.1 item.2 := by
    intro item hitem
    simp only [List.mem_cons, List.not_mem_nil, or_false] at hitem
    rcases hitem with rfl | rfl | rfl
    · exact canonical_uint (by omega) depth
    · exact canonical_bytes (by rw [hkey]; decide) depth
    · exact canonical_bytes (by rw [hsignature]; decide) depth
  have hcanonical := canonical_array (by simp) hfields
  simpa [signatureItem, SignatureStanza.bytes, List.append_assoc] using hcanonical

/-! ## Recipient stanzas -/

def stanzaItem (stanza : Stanza) : Item :=
  .array (.uint stanza.tag.toNat :: stanza.fields.map Item.bytes)

theorem forM_eq_ok {ε α : Type} {f : α → Except ε Unit} {p : α → Prop}
    (hf : ∀ a, f a = .ok () ↔ p a) (xs : List α) {u : Unit} :
    xs.forM f = .ok u ↔ ∀ x ∈ xs, p x := by
  induction xs with
  | nil => simp
  | cons x xs ih =>
    show (do f x; xs.forM f) = .ok u ↔ ∀ y ∈ x :: xs, p y
    rw [bind_eq_ok, List.forall_mem_cons, ← ih, ← hf x]
    exact ⟨fun ⟨_, h⟩ => h, fun h => ⟨(), h⟩⟩

/-- Items that are all byte strings. -/
theorem eq_map_bytes {items : List Item} (h : ∀ item ∈ items, isBytes item = true) :
    items = (items.map buffer).map Item.bytes := by
  have hsame : items.map (Item.bytes ∘ buffer) = items.map id := by
    apply List.map_congr_left
    intro item hitem
    have ⟨content, hcontent⟩ := isBytes_iff.mp (h item hitem)
    rw [hcontent]
    rfl
  rw [List.map_map, hsame, List.map_id]

/-- What an accepted stanza looks like. -/
theorem stanza_of_check {item : Item} {xwing : Bool}
    (h : checkRecipientStanza item = .ok xwing) :
    ∃ stanza : Stanza, stanza.Valid ∧ item = stanzaItem stanza ∧ xwing = stanza.asXwing.isSome := by
  unfold checkRecipientStanza at h
  have ⟨_, hcount, h⟩ := bind_eq_ok.mp h
  have ⟨_, htag, h⟩ := bind_eq_ok.mp h
  have ⟨_, hfields, h⟩ := bind_eq_ok.mp h
  have ⟨harray, hpos, hle⟩ := need_eq_ok.mp hcount
  have ⟨items, hitems⟩ := isArray_iff.mp harray
  subst hitems
  cases items with
  | nil => exact absurd hpos (by decide)
  | cons tag fields =>
    have ⟨huint, hone, hmax⟩ := need_eq_ok.mp htag
    have hbytes := (forM_eq_ok (fun field => need_eq_ok) fields).mp hfields
    have hmap := eq_map_bytes fun field hfield => (hbytes field hfield).1
    cases tag with
    | uint n =>
      have hone : 1 ≤ n := hone
      have hmax : n ≤ 65535 := hmax
      have hn : (UInt16.ofNat n).toNat = n := by
        rw [UInt16.toNat_ofNat']
        omega
      by_cases hx : n ≠ xwingTag
      · have hxwing : xwing = false := pure_eq_ok.mp ((if_pos hx).symm.trans h)
        have hle : fields.length + 1 ≤ maxStanzaItems := hle
        refine ⟨.unknown ⟨UInt16.ofNat n, fields.map buffer⟩, ⟨?_, ?_, ?_⟩, ?_, hxwing⟩
        · rw [hn]
          unfold xwingTag at hx
          unfold Format.xwingTag
          omega
        · rw [List.length_map]
          unfold maxStanzaItems at hle
          unfold Format.maxStanzaItems
          omega
        · intro field hfield
          have ⟨value, hvalue, heq⟩ := List.mem_map.mp hfield
          rw [← heq]
          exact (hbytes value hvalue).2
        · show Item.array (Item.uint n :: fields) = _
          rw [hmap]
          simp only [stanzaItem, Stanza.tag, Stanza.fields, hn, ← hmap]
      · have hbranch := (if_neg hx).symm.trans h
        have ⟨_, hshape, hpure⟩ := bind_eq_ok.mp hbranch
        have ⟨hthree, henc, hcek⟩ := need_eq_ok.mp hshape
        have ⟨first, second, hpair⟩ := List.length_eq_two.mp (Nat.succ.inj hthree)
        subst hpair
        have ⟨encapsulation, hfirst⟩ := isBytes_iff.mp (hbytes first (by simp)).1
        have ⟨wrapped, hsecond⟩ := isBytes_iff.mp (hbytes second (by simp)).1
        subst hfirst hsecond
        have hn : n = 1 := not_not.mp hx
        subst hn
        exact ⟨.xWing ⟨encapsulation, wrapped⟩, ⟨henc, hcek⟩, rfl, pure_eq_ok.mp hpure⟩
    | _ => cases huint

/-- The check accepts every stanza the codec writes. -/
theorem check_stanzaItem {stanza : Stanza} (h : stanza.Valid) :
    checkRecipientStanza (stanzaItem stanza) = .ok stanza.asXwing.isSome := by
  have hfields : ∀ field ∈ stanza.fields, field.length ≤ maxFieldLen := by
    cases stanza with
    | xWing stanza =>
      have ⟨henc, hcek⟩ := h
      intro field hfield
      simp only [Stanza.fields, List.mem_cons, List.not_mem_nil, or_false] at hfield
      rcases hfield with rfl | rfl
      · rw [henc]
        decide
      · rw [hcek]
        decide
    | unknown stanza => exact h.2.2
  have hchecked : (stanza.fields.map Item.bytes).forM (fun field =>
      need (isBytes field ∧ (buffer field).length ≤ maxFieldLen) .malformedHeader
        "stanza field") = .ok () := by
    refine (forM_eq_ok (fun field => need_eq_ok) _).mpr ?_
    intro item hitem
    have ⟨field, hfield, heq⟩ := List.mem_map.mp hitem
    rw [← heq]
    exact ⟨rfl, hfields field hfield⟩
  have hlt := stanza.tag.toNat_lt
  have hone : 1 ≤ stanza.tag.toNat := by
    cases stanza with
    | xWing stanza => exact le_rfl
    | unknown stanza => exact le_of_lt h.1
  have hcount : stanza.fields.length + 1 ≤ maxStanzaItems := by
    cases stanza with
    | xWing stanza => exact Nat.le_of_ble_eq_true rfl
    | unknown stanza => exact h.2.1
  unfold checkRecipientStanza stanzaItem
  simp only [elements, index, List.getD_cons_zero, List.length_cons, List.length_map, integer,
    List.drop_succ_cons, List.drop_zero]
  rw [need_pos ⟨rfl, by omega, hcount⟩, ok_bind, need_pos ⟨by simp [isUint]; omega, hone, by omega⟩,
    ok_bind, hchecked, ok_bind]
  cases stanza with
  | xWing stanza =>
    have ⟨henc, hcek⟩ := h
    have htag : (Stanza.xWing stanza).tag.toNat = xwingTag := rfl
    rw [if_neg (not_not.mpr htag), need_pos ⟨rfl, henc, hcek⟩]
    rfl
  | unknown stanza =>
    have htag : stanza.tag.toNat ≠ xwingTag := Nat.ne_of_gt h.1
    exact if_pos htag

theorem checkRecipientStanza_eq_ok {item : Item} {xwing : Bool} :
    checkRecipientStanza item = .ok xwing ↔
      ∃ stanza : Stanza, stanza.Valid ∧ item = stanzaItem stanza ∧
        xwing = stanza.asXwing.isSome := by
  refine ⟨stanza_of_check, ?_⟩
  rintro ⟨stanza, hvalid, rfl, rfl⟩
  exact check_stanzaItem hvalid

theorem canonical_stanza {stanza : Stanza} (h : stanza.Valid) (depth : ℕ) :
    Canonical (depth + 1) (stanzaItem stanza) stanza.bytes := by
  have hlt := stanza.tag.toNat_lt
  have hfields : stanza.fields.length < maxStanzaItems ∧
      ∀ field ∈ stanza.fields, field.length < 2 ^ 64 := by
    cases stanza with
    | xWing stanza =>
      have ⟨henc, hcek⟩ := h
      refine ⟨Nat.le_of_ble_eq_true rfl, ?_⟩
      intro field hfield
      simp only [Stanza.fields, List.mem_cons, List.not_mem_nil, or_false] at hfield
      rcases hfield with rfl | rfl
      · rw [henc]
        decide
      · rw [hcek]
        decide
    | unknown stanza =>
      refine ⟨h.2.1, fun field hfield => ?_⟩
      have hle := h.2.2 field hfield
      unfold maxExtensionLen at hle
      omega
  have hlen := hfields.1
  unfold maxStanzaItems at hlen
  -- the tag and the fields, each with its bytes
  have hitems : ∀ item ∈ (Item.uint stanza.tag.toNat, Cbor.uint stanza.tag.toNat) ::
      stanza.fields.map (fun field => (Item.bytes field, Cbor.bytes field)),
      Canonical depth item.1 item.2 := by
    intro item hitem
    rcases List.mem_cons.mp hitem with rfl | hitem
    · exact canonical_uint (by omega) depth
    · have ⟨field, hfield, heq⟩ := List.mem_map.mp hitem
      rw [← heq]
      exact canonical_bytes (hfields.2 field hfield) depth
  have hcanonical := canonical_array (by simp only [List.length_cons, List.length_map]; omega) hitems
  have hbytes : stanza.bytes = Cbor.array (stanza.fields.length + 1) ++
      (Cbor.uint stanza.tag.toNat ++ stanza.fields.flatMap Cbor.bytes) := by
    cases stanza with
    | xWing stanza => simp [Stanza.bytes, Stanza.fields, Stanza.tag, Format.xwingTag]
    | unknown stanza => simp [Stanza.bytes, Stanza.fields, Stanza.tag, Nat.add_comm]
  rw [hbytes]
  simpa [stanzaItem, List.map_map, Function.comp_def, List.flatMap_map] using hcanonical

/-! ## Extensions -/

def extensionPair (extension : Extension) : ℕ × Bytes := (extension.key.toNat, extension.value)

def extensionEntry (extension : Extension) : Item × Item :=
  (.uint extension.key.toNat, .bytes extension.value)

/-- One entry past the core keys. -/
theorem extension_of_entry {key : Item} {value : Item} {previous : ℕ}
    (hinteger : isInteger key = true) (hmax : ¬integer key > 65535) (hgt : integer key > previous)
    (hignorable : integer key ≥ 64)
    (hvalue : isBytes value = true ∧ (buffer value).length ≤ maxFieldLen) :
    ∃ extension : Extension, (key, value) = extensionEntry extension ∧
      integer key = extension.key.toNat ∧
      (firstIgnorableKey ≤ extension.key.toNat ∧ previous < extension.key.toNat ∧
        extension.value.length ≤ maxExtensionLen) := by
  have ⟨n, hn⟩ := isInteger_iff.mp hinteger
  have ⟨content, hcontent⟩ := isBytes_iff.mp hvalue.1
  subst hn hcontent
  have hmax : ¬n > 65535 := hmax
  have hkey : (UInt16.ofNat n).toNat = n := by
    rw [UInt16.toNat_ofNat']
    omega
  refine ⟨⟨UInt16.ofNat n, content⟩, ?_, hkey.symm, ?_⟩
  · simp only [extensionEntry, hkey]
  · simp only [hkey]
    exact ⟨hignorable, hgt, hvalue.2⟩

theorem checkHeaderExtensions_eq_ok {previous : ℕ} {map : List (Item × Item)}
    {pairs : List (ℕ × Bytes)} :
    checkHeaderExtensions previous map = .ok pairs ↔
      ∃ extensions, ExtensionsFrom previous extensions ∧ map = extensions.map extensionEntry ∧
        pairs = extensions.map extensionPair := by
  induction map generalizing previous pairs with
  | nil =>
    rw [checkHeaderExtensions, pure_eq_ok]
    constructor
    · rintro rfl
      exact ⟨[], trivial, rfl, rfl⟩
    · rintro ⟨extensions, _, hmap, hpairs⟩
      rw [hpairs, List.map_eq_nil_iff.mp hmap.symm]
      rfl
  | cons entry rest ih =>
    obtain ⟨key, value⟩ := entry
    simp only [checkHeaderExtensions, bind_eq_ok, need_eq_ok, pure_eq_ok, exists_const, ih]
    constructor
    · rintro ⟨hinteger, hmax, hgt, hignorable, hvalue, _, ⟨extensions, hfrom, hrest, rfl⟩, rfl⟩
      obtain ⟨extension, hentry, hkey, hextension⟩ :=
        extension_of_entry hinteger hmax hgt hignorable hvalue
      refine ⟨extension :: extensions, ⟨hextension, hkey ▸ hfrom⟩, ?_, ?_⟩
      · rw [hentry, hrest]
        rfl
      · rw [List.map_cons, extensionPair, hkey, (Prod.mk.inj hentry).2]
        rfl
    · rintro ⟨extensions, hfrom, hmap, hpairs⟩
      cases extensions with
      | nil => cases hmap
      | cons extension extensions =>
        obtain ⟨hentry, hrest⟩ := List.cons.inj hmap
        obtain ⟨hkey, hvalue⟩ := Prod.mk.inj hentry
        subst hkey hvalue
        obtain ⟨⟨hignorable, hgt, hlen⟩, hfrom⟩ := hfrom
        have hlt := extension.key.toNat_lt
        exact ⟨rfl, by simp only [integer]; omega, hgt, hignorable, ⟨rfl, hlen⟩, _,
          ⟨extensions, hfrom, hrest, rfl⟩, hpairs⟩

/-! ## Headers -/

/-- Lists of checked values. -/
theorem mapM_eq_ok_exists {ε α β γ : Type} {f : α → Except ε β} {p : γ → Prop} {item : γ → α}
    {result : γ → β} (hf : ∀ a b, f a = .ok b ↔ ∃ c, p c ∧ a = item c ∧ b = result c)
    (xs : List α) (ys : List β) :
    xs.mapM f = .ok ys ↔
      ∃ cs : List γ, (∀ c ∈ cs, p c) ∧ xs = cs.map item ∧ ys = cs.map result := by
  induction xs generalizing ys with
  | nil =>
    rw [List.mapM_nil, pure_eq_ok]
    constructor
    · rintro rfl
      exact ⟨[], by simp, rfl, rfl⟩
    · rintro ⟨cs, _, hcs, rfl⟩
      rw [List.map_eq_nil_iff.mp hcs.symm]
      rfl
  | cons x xs ih =>
    simp only [List.mapM_cons, bind_eq_ok, pure_eq_ok, hf, ih]
    constructor
    · rintro ⟨_, ⟨c, hc, rfl, rfl⟩, _, ⟨cs, hcs, rfl, rfl⟩, rfl⟩
      exact ⟨c :: cs, List.forall_mem_cons.mpr ⟨hc, hcs⟩, rfl, rfl⟩
    · rintro ⟨cs, hcs, hmap, rfl⟩
      cases cs with
      | nil => cases hmap
      | cons c cs =>
        obtain ⟨hx, hxs⟩ := List.cons.inj hmap
        obtain ⟨hc, hcs⟩ := List.forall_mem_cons.mp hcs
        exact ⟨_, ⟨c, hc, hx, rfl⟩, _, ⟨cs, hcs, hxs, rfl⟩, rfl⟩

/-- The signatures of a slot, as `forEach` checks them. -/
theorem forM_signatures {items : List Item} :
    items.forM checkSignatureStanza = .ok () ↔
      ∃ stanzas : List SignatureStanza, (∀ s ∈ stanzas, s.Valid) ∧
        items = stanzas.map signatureItem := by
  rw [forM_eq_ok (fun item => checkSignatureStanza_eq_ok)]
  constructor
  · intro h
    induction items with
    | nil => exact ⟨[], by simp, rfl⟩
    | cons item items ih =>
      have ⟨⟨stanza, hvalid, hitem⟩, hrest⟩ := List.forall_mem_cons.mp h
      have ⟨stanzas, hstanzas, hitems⟩ := ih hrest
      refine ⟨stanza :: stanzas, List.forall_mem_cons.mpr ⟨hvalid, hstanzas⟩, ?_⟩
      rw [hitem, hitems]
      rfl
  · rintro ⟨stanzas, hstanzas, rfl⟩ item hitem
    have ⟨stanza, hmem, heq⟩ := List.mem_map.mp hitem
    exact ⟨stanza, hstanzas stanza hmem, heq.symm⟩

def headerEntries (header : ProtectedHeader) : List (Item × Item) :=
  [(.uint 1, .uint Format.suite), (.uint 2, .bytes header.objectId.toList),
    (.uint 3, .array (header.recipients.map stanzaItem)),
    (.uint 4, .bytes header.encryptedMetadata),
    (.uint 5, .array (header.signatures.map signatureItem))] ++
    header.extensions.map extensionEntry

/-- What `checkHeader` returns for a header. -/
def headerView (header : ProtectedHeader) : Header where
  objectId := header.objectId.toList
  stanzas := header.recipients.map stanzaItem
  xwing := header.recipients.map fun stanza => stanza.asXwing.isSome
  encryptedMetadata := header.encryptedMetadata
  publicSignatures := header.signatures.map signatureItem
  extensions := header.extensions.map extensionPair

/-- The order of extensions does not depend on the core key they come after. -/
theorem extensionsFrom_iff {p q : ℕ} (hp : p < firstIgnorableKey) (hq : q < firstIgnorableKey)
    (extensions : List Extension) : ExtensionsFrom p extensions ↔ ExtensionsFrom q extensions := by
  cases extensions with
  | nil => exact Iff.rfl
  | cons extension rest =>
    unfold ExtensionsFrom
    constructor
    · rintro ⟨⟨h64, _, hlen⟩, hrest⟩
      exact ⟨⟨h64, by omega, hlen⟩, hrest⟩
    · rintro ⟨⟨h64, _, hlen⟩, hrest⟩
      exact ⟨⟨h64, by omega, hlen⟩, hrest⟩

/-- A map that begins with the keys 1 to 5. -/
theorem five_keys {map : List (Item × Item)} :
    (map.map Prod.fst).length ≥ 5 ∧
        (∀ i < 5, isNumber ((map.map Prod.fst).getD i undefined) (i + 1)) ↔
      ∃ a b c d e rest, map = (.uint 1, a) :: (.uint 2, b) :: (.uint 3, c) :: (.uint 4, d) ::
        (.uint 5, e) :: rest := by
  constructor
  · rintro ⟨hlen, hkeys⟩
    match map with
    | (k1, a) :: (k2, b) :: (k3, c) :: (k4, d) :: (k5, e) :: rest =>
      have h1 : k1 = .uint 1 := (isNumber_iff (by omega)).mp (hkeys 0 (by omega))
      have h2 : k2 = .uint 2 := (isNumber_iff (by omega)).mp (hkeys 1 (by omega))
      have h3 : k3 = .uint 3 := (isNumber_iff (by omega)).mp (hkeys 2 (by omega))
      have h4 : k4 = .uint 4 := (isNumber_iff (by omega)).mp (hkeys 3 (by omega))
      have h5 : k5 = .uint 5 := (isNumber_iff (by omega)).mp (hkeys 4 (by omega))
      subst h1 h2 h3 h4 h5
      exact ⟨a, b, c, d, e, rest, rfl⟩
  · rintro ⟨a, b, c, d, e, rest, rfl⟩
    refine ⟨by simp, ?_⟩
    intro i hi
    match i with
    | 0 | 1 | 2 | 3 | 4 => rfl

theorem get_five (a b c d e : Item) (rest : List (Item × Item)) :
    let map := (Item.uint 1, a) :: (.uint 2, b) :: (.uint 3, c) :: (.uint 4, d) :: (.uint 5, e) ::
      rest
    get map 1 = some a ∧ get map 2 = some b ∧ get map 3 = some c ∧ get map 4 = some d ∧
      get map 5 = some e := ⟨rfl, rfl, rfl, rfl, rfl⟩

/-- What an accepted header looks like. -/
theorem header_of_check {item : Item} {view : Header} (h : checkHeader item = .ok view) :
    ∃ header : ProtectedHeader, header.Valid true ∧ item = .map (headerEntries header) ∧
      view = headerView header := by
  unfold checkHeader at h
  obtain ⟨_, hmap, h⟩ := bind_eq_ok.mp h
  have ⟨map, hitem⟩ := isMap_iff.mp (need_eq_ok.mp hmap)
  subst hitem
  obtain ⟨_, hfive, h⟩ := bind_eq_ok.mp h
  have ⟨suite, objectId, stanzas, encryptedMetadata, publicSignatures, rest, hentries⟩ :=
    five_keys.mp (need_eq_ok.mp hfive)
  have hentries : map = _ := hentries
  subst hentries
  have ⟨h1, h2, h3, h4, h5⟩ :=
    get_five suite objectId stanzas encryptedMetadata publicSignatures rest
  simp only [entries, h1, h2, h3, h4, h5, Option.getD_some] at h
  obtain ⟨_, hsuite, h⟩ := bind_eq_ok.mp h
  obtain ⟨_, hobjectId, h⟩ := bind_eq_ok.mp h
  obtain ⟨_, hstanzas, h⟩ := bind_eq_ok.mp h
  obtain ⟨_, hmetadata, h⟩ := bind_eq_ok.mp h
  obtain ⟨_, hsignatures, h⟩ := bind_eq_ok.mp h
  obtain ⟨_, hone, h⟩ := bind_eq_ok.mp h
  obtain ⟨_, hforM, h⟩ := bind_eq_ok.mp h
  obtain ⟨xwing, hmapM, h⟩ := bind_eq_ok.mp h
  obtain ⟨pairs, hpairs, h⟩ := bind_eq_ok.mp h
  obtain ⟨_, hcount, h⟩ := bind_eq_ok.mp h
  have hpure := pure_eq_ok.mp h
  -- each field is of the kind and within the limits that its check demands
  have hsuite : suite = .uint Format.suite :=
    (isNumber_iff (by decide)).mp (need_eq_ok.mp hsuite)
  have ⟨hid, hidLen⟩ := need_eq_ok.mp hobjectId
  have ⟨id, hid⟩ := isBytes_iff.mp hid
  have ⟨harray, hpos, hmax⟩ := need_eq_ok.mp hstanzas
  have ⟨items, hitems⟩ := isArray_iff.mp harray
  have ⟨hbytes, hle, hge⟩ := need_eq_ok.mp hmetadata
  have ⟨metadata, hmetadata⟩ := isBytes_iff.mp hbytes
  have ⟨slot, hslot⟩ := isArray_iff.mp (need_eq_ok.mp hsignatures)
  subst hsuite hid hitems hmetadata hslot
  have ⟨recipients, hrecipients, hstanzaItems, hxwing⟩ :=
    (mapM_eq_ok_exists (fun _ _ => checkRecipientStanza_eq_ok) items xwing).mp hmapM
  have ⟨signatures, hvalid, hsignatureItems⟩ := forM_signatures.mp hforM
  have ⟨extensions, hfrom, hrest, hview⟩ := checkHeaderExtensions_eq_ok.mp hpairs
  have hrest : rest = extensions.map extensionEntry := hrest
  have hsignatureItems : slot = signatures.map signatureItem := hsignatureItems
  have hstanzaItems : items = recipients.map stanzaItem := hstanzaItems
  have hone := need_eq_ok.mp hone
  have hcount := need_eq_ok.mp hcount
  subst hrest hsignatureItems hstanzaItems hxwing hview
  simp only [elements, List.length_map] at hpos hmax hone hcount
  let header : ProtectedHeader :=
    { objectId := ⟨id.toArray, hidLen⟩, recipients, encryptedMetadata := metadata, signatures,
      extensions }
  have hidList : header.objectId.toList = id := rfl
  refine ⟨header, ?_, ?_, ?_⟩
  · exact
      { recipients_ne := List.ne_nil_of_length_pos hpos
        recipients_le := hmax
        le_metadata := hle
        metadata_le := hge
        signatures_le := hone
        extensions := ⟨hcount, (extensionsFrom_iff (by decide) (by decide) _).mp hfrom⟩
        stanza := hrecipients
        signature := hvalid }
  · rw [headerEntries, hidList]
    rfl
  · rw [hpure, headerView, hidList]
    rfl

/-- The check accepts every header the codec writes. -/
theorem check_headerEntries {header : ProtectedHeader} (h : header.Valid true) :
    checkHeader (.map (headerEntries header)) = .ok (headerView header) := by
  have hfive := five_keys.mpr ⟨.uint Format.suite, .bytes header.objectId.toList,
    .array (header.recipients.map stanzaItem), .bytes header.encryptedMetadata,
    .array (header.signatures.map signatureItem), header.extensions.map extensionEntry, rfl⟩
  have ⟨h1, h2, h3, h4, h5⟩ := get_five (.uint Format.suite) (.bytes header.objectId.toList)
    (.array (header.recipients.map stanzaItem)) (.bytes header.encryptedMetadata)
    (.array (header.signatures.map signatureItem)) (header.extensions.map extensionEntry)
  have hid : header.objectId.toList.length = 32 := Vector.length_toList
  have hpos : (header.recipients.map stanzaItem).length ≥ 1 := by
    rw [List.length_map]
    exact List.length_pos_iff.mpr h.recipients_ne
  have hle : (header.recipients.map stanzaItem).length ≤ maxStanzas := by
    rw [List.length_map]
    exact h.recipients_le
  have hone : (header.signatures.map signatureItem).length ≤ 1 := by
    rw [List.length_map]
    exact h.signatures_le
  have hforM : (header.signatures.map signatureItem).forM checkSignatureStanza = .ok () :=
    forM_signatures.mpr ⟨header.signatures, h.signature, rfl⟩
  have hmapM := (mapM_eq_ok_exists (fun _ _ => checkRecipientStanza_eq_ok)
    (header.recipients.map stanzaItem) _).mpr ⟨header.recipients, h.stanza, rfl, rfl⟩
  have hfrom : ExtensionsFrom 5 header.extensions :=
    (extensionsFrom_iff (by decide) (by decide) _).mp h.extensions.2
  have hextensions := checkHeaderExtensions_eq_ok.mpr ⟨header.extensions, hfrom, rfl, rfl⟩
  have hcount : (header.extensions.map extensionPair).length ≤ maxExtensions := by
    rw [List.length_map]
    exact h.extensions.1
  refine bind_eq_ok.mpr ⟨(), need_pos rfl, ?_⟩
  refine bind_eq_ok.mpr ⟨(), need_pos hfive, ?_⟩
  simp only [headerEntries, List.cons_append, List.nil_append, entries, h1, h2, h3, h4, h5,
    Option.getD_some]
  refine bind_eq_ok.mpr ⟨(), need_pos (by decide), ?_⟩
  refine bind_eq_ok.mpr ⟨(), need_pos ⟨rfl, hid⟩, ?_⟩
  refine bind_eq_ok.mpr ⟨(), need_pos ⟨rfl, hpos, hle⟩, ?_⟩
  refine bind_eq_ok.mpr ⟨(), need_pos ⟨rfl, h.le_metadata, h.metadata_le⟩, ?_⟩
  refine bind_eq_ok.mpr ⟨(), need_pos rfl, ?_⟩
  refine bind_eq_ok.mpr ⟨(), need_pos hone, ?_⟩
  refine bind_eq_ok.mpr ⟨(), hforM, ?_⟩
  refine bind_eq_ok.mpr ⟨_, hmapM, ?_⟩
  refine bind_eq_ok.mpr ⟨_, hextensions, ?_⟩
  refine bind_eq_ok.mpr ⟨(), need_pos hcount, rfl⟩

/-! ### The bytes of a header -/

theorem extensions_ascend {previous : ℕ} {extensions : List Extension}
    (h : ExtensionsFrom previous extensions) :
    extensions.Pairwise (fun a b => a.key.toNat < b.key.toNat) ∧
      ∀ extension ∈ extensions, previous < extension.key.toNat := by
  induction extensions generalizing previous with
  | nil => simp
  | cons extension rest ih =>
    have ⟨⟨_, hgt, _⟩, hrest⟩ := h
    have ⟨hpairwise, hlower⟩ := ih hrest
    refine ⟨List.pairwise_cons.mpr ⟨hlower, hpairwise⟩, ?_⟩
    intro e he
    rcases List.mem_cons.mp he with rfl | he
    · exact hgt
    · exact hgt.trans (hlower e he)

theorem extensions_bounded {previous : ℕ} {extensions : List Extension}
    (h : ExtensionsFrom previous extensions) :
    ∀ extension ∈ extensions, extension.value.length < 2 ^ 64 := by
  induction extensions generalizing previous with
  | nil => simp
  | cons extension rest ih =>
    have ⟨⟨_, _, hlen⟩, hrest⟩ := h
    unfold maxExtensionLen at hlen
    intro e he
    rcases List.mem_cons.mp he with rfl | he
    · omega
    · exact ih hrest e he

/-- An extension's key, item and bytes. -/
def extensionField (extension : Extension) : Field :=
  ⟨extension.key.toNat, .bytes extension.value, Cbor.bytes extension.value⟩

/-- Core fields with ascending keys, and the extensions after them. -/
theorem extended_fields {core : List Field} {extensions : List Extension} {last depth : ℕ}
    (hlast : last < firstIgnorableKey) (hasc : core.Pairwise fun a b => a.key < b.key)
    (hle : ∀ field ∈ core, field.key ≤ last) (hcore : ∀ field ∈ core, field.Canonical depth)
    (h : ValidExtensions extensions) :
    ((core ++ extensions.map extensionField).Pairwise fun a b => a.key < b.key) ∧
      ∀ field ∈ core ++ extensions.map extensionField, field.Canonical depth := by
  have hfrom : ExtensionsFrom last extensions := (extensionsFrom_iff (by decide) hlast _).mp h.2
  have ⟨hpairwise, hlower⟩ := extensions_ascend hfrom
  constructor
  · rw [List.pairwise_append, List.pairwise_map]
    refine ⟨hasc, hpairwise, ?_⟩
    intro field hfield entry hentry
    have ⟨extension, hextension, heq⟩ := List.mem_map.mp hentry
    rw [← heq]
    exact (hle field hfield).trans_lt (hlower extension hextension)
  · intro field hfield
    rcases List.mem_append.mp hfield with hfield | hfield
    · exact hcore field hfield
    · have ⟨extension, hextension, heq⟩ := List.mem_map.mp hfield
      rw [← heq]
      exact ⟨extension.key.toNat_lt,
        canonical_bytes (extensions_bounded hfrom extension hextension) depth⟩

/-- A map with ascending core keys and then the extensions, in the bytes the codec writes. -/
theorem canonical_fields {core : List Field} {extensions : List Extension} {last depth : ℕ}
    (hlast : last < firstIgnorableKey) (hasc : core.Pairwise fun a b => a.key < b.key)
    (hle : ∀ field ∈ core, field.key ≤ last) (hcore : ∀ field ∈ core, field.Canonical depth)
    (hlen : core.length ≤ 5) (h : ValidExtensions extensions) :
    Canonical (depth + 1) (.map (core.map Field.entry ++ extensions.map extensionEntry))
      (Cbor.map (core.length + extensions.length) ++
        (core.flatMap Field.wire ++ extensions.flatMap encodeExtension)) := by
  have hcount := h.1
  unfold Format.maxExtensions at hcount
  have ⟨hall, hcanonical⟩ := extended_fields hlast hasc hle hcore h
  have hmap := canonical_map hall (by rw [List.length_append, List.length_map]; omega) hcanonical
  rw [List.map_append, List.map_map, List.length_append, List.length_map, List.flatMap_append,
    List.flatMap_map] at hmap
  exact hmap

/-- The core fields of a header. -/
def headerFields (header : ProtectedHeader) : List Field :=
  [⟨1, .uint Format.suite, Cbor.uint Format.suite⟩,
    ⟨2, .bytes header.objectId.toList, Cbor.bytes header.objectId.toList⟩,
    ⟨3, .array (header.recipients.map stanzaItem),
      Cbor.array header.recipients.length ++ header.recipients.flatMap Stanza.bytes⟩,
    ⟨4, .bytes header.encryptedMetadata, Cbor.bytes header.encryptedMetadata⟩,
    ⟨5, .array (header.signatures.map signatureItem),
      Cbor.array header.signatures.length ++ header.signatures.flatMap SignatureStanza.bytes⟩]

theorem headerFields_canonical {header : ProtectedHeader} (h : header.Valid true) (depth : ℕ) :
    ∀ field ∈ headerFields header, field.Canonical (depth + 2) := by
  have hid : header.objectId.toList.length = 32 := Vector.length_toList
  have hrecipients := h.recipients_le
  have hmetadata := h.metadata_le
  have hsignatures := h.signatures_le
  unfold maxRecipients at hrecipients
  unfold Format.maxMetadataLen Format.tagLen at hmetadata
  unfold maxSignatures at hsignatures
  intro field hfield
  simp only [headerFields, List.mem_cons, List.not_mem_nil, or_false] at hfield
  rcases hfield with rfl | rfl | rfl | rfl | rfl
  · exact ⟨by simp, canonical_uint (by decide) _⟩
  · exact ⟨by simp, canonical_bytes (by omega) _⟩
  · exact ⟨by simp, canonical_array (by omega) fun s hs => canonical_stanza (h.stanza s hs) depth⟩
  · exact ⟨by simp, canonical_bytes (by omega) _⟩
  · exact ⟨by simp,
      canonical_array (by omega) fun s hs => canonical_signature (h.signature s hs) depth⟩

theorem canonical_header {header : ProtectedHeader} (h : header.Valid true) (depth : ℕ) :
    Canonical (depth + 3) (.map (headerEntries header)) (header.bytes true) := by
  have hcanonical := canonical_fields (by decide : 5 < firstIgnorableKey)
    (by simp [headerFields]) (by simp [headerFields]) (headerFields_canonical h depth)
    (by simp [headerFields]) h.extensions
  have hbytes : header.bytes true = Cbor.map ((headerFields header).length +
      header.extensions.length) ++ ((headerFields header).flatMap Field.wire ++
        header.extensions.flatMap encodeExtension) := by
    simp [ProtectedHeader.bytes, ProtectedHeader.slot, headerFields, Field.wire]
  rw [hbytes]
  exact hcanonical

theorem checkHeader_eq_ok {item : Item} {view : Header} :
    checkHeader item = .ok view ↔
      ∃ header : ProtectedHeader, header.Valid true ∧ item = .map (headerEntries header) ∧
        view = headerView header := by
  refine ⟨header_of_check, ?_⟩
  rintro ⟨header, hvalid, rfl, rfl⟩
  exact check_headerEntries hvalid

end HideProtocol.Conformance
