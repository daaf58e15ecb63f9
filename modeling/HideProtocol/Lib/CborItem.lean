import Mathlib.Data.List.Forall2
import HideProtocol.Lib.Cbor

/-!
# CBOR items

Whole items, as a generic decoder returns them: unsigned integers, byte strings, text, arrays and
maps, and one constructor for everything else. `Encodes depth item bytes` says that `bytes` are
the shortest definite encoding of `item`, nested at most `depth` deep, with distinct map keys and
the entries in the order the map has them. `decodeAll` reads a sequence of items and returns the
item of every such encoding.
-/

namespace HideProtocol.Lib.Cbor

/-- A decoded item. `other` is a negative integer, a float, a simple value or a tag, with what an
encoder for the rest says of it. -/
inductive Item where
  | uint (n : ℕ)
  | bytes (content : Bytes)
  | text (content : String)
  | array (items : List Item)
  | map (entries : List (Item × Item))
  | other (refusal : String)

/-- `bs` is the shortest encoding of an item, given what it is for the items inside it. -/
def EncodesWith (nested : Item → Bytes → Prop) : Item → Bytes → Prop
  | .uint n, bs => n < 2 ^ 64 ∧ bs = Cbor.uint n
  | .bytes content, bs => content.length < 2 ^ 64 ∧ bs = Cbor.bytes content
  | .text content, bs => (utf8 content).length < 2 ^ 64 ∧ bs = Cbor.str content
  | .array items, bs => items.length < 2 ^ 64 ∧
      ∃ parts, List.Forall₂ nested items parts ∧ bs = Cbor.array items.length ++ parts.flatten
  | .map entries, bs => entries.length < 2 ^ 64 ∧ (entries.map Prod.fst).Nodup ∧
      ∃ parts, List.Forall₂ (fun entry part => ∃ key value, nested entry.1 key ∧
          nested entry.2 value ∧ part = key ++ value) entries parts ∧
        bs = Cbor.map entries.length ++ parts.flatten
  | .other _, _ => False

/-- The shortest encoding of an item whose contents are nested at most `depth` deep. -/
def Encodes : ℕ → Item → Bytes → Prop
  | 0 => EncodesWith fun _ _ => False
  | depth + 1 => EncodesWith (Encodes depth)

/-! ## A decoder -/

/-- Reads one item, with `nested` for the items inside it. -/
def readItemWith (nested : Parser Unit Item) : Parser Unit Item := fun bs =>
  match (bs.headD 0).toNat / 32 with
  | 0 => (do pure (Item.uint (← Parser.orErr () readU64)) : Parser Unit Item) bs
  | 2 => (do pure (Item.bytes (← Parser.orErr () readBytes)) : Parser Unit Item) bs
  | 3 => (do pure (Item.text (← Parser.orErr () readStr)) : Parser Unit Item) bs
  | 4 => (do
      let count ← Parser.orErr () (readHead 4)
      pure (Item.array (← nested.times count)) : Parser Unit Item) bs
  | 5 => (do
      let count ← Parser.orErr () (readHead 5)
      let entry : Parser Unit (Item × Item) := do
        let key ← nested
        let value ← nested
        pure (key, value)
      pure (Item.map (← entry.times count)) : Parser Unit Item) bs
  | _ => .error ()

/-- Reads one item nested at most `depth` deep. -/
def readItem : ℕ → Parser Unit Item
  | 0 => readItemWith fun _ => .error ()
  | depth + 1 => readItemWith (readItem depth)

/-- Reads items to the end of the input; each takes at least one byte. -/
def readItems (depth : ℕ) : ℕ → Bytes → Except Unit (List Item)
  | _, [] => .ok []
  | 0, _ :: _ => .error ()
  | fuel + 1, b :: bs => do
    let (item, rest) ← readItem depth (b :: bs)
    let items ← readItems depth fuel rest
    pure (item :: items)

def decodeAll (depth : ℕ) (bs : Bytes) : Except Unit (List Item) := readItems depth bs.length bs

/-! ## The decoder undoes the encoding -/

/-- A head starts with its major type. -/
theorem headD_head {major n : ℕ} (hm : major < 8) (rest : Bytes) :
    ((head major n ++ rest).headD 0).toNat / 32 = major := by
  have hfirst : ∀ info < 32, (UInt8.ofNat (major * 32 + info)).toNat / 32 = major := by
    intro info hinfo
    rw [UInt8.toNat_ofNat']
    omega
  unfold head
  split_ifs with h
  · exact hfirst n (by omega)
  · exact hfirst 24 (by omega)
  · exact hfirst 25 (by omega)
  · exact hfirst 26 (by omega)
  · exact hfirst 27 (by omega)

theorem reads_forall₂ {α : Type} {p : Parser Unit α} {xs : List α} {parts : List Bytes}
    (h : List.Forall₂ (fun x part => Reads p part x) xs parts) :
    Reads (p.times xs.length) parts.flatten xs := by
  induction h with
  | nil => exact Reads.pure []
  | cons hx _ ih => exact hx.bind (ih.bind_last (Reads.pure _))

theorem reads_head {major n : ℕ} (hm : major < 8) (hn : n < 2 ^ 64) :
    Reads (Parser.orErr () (readHead major)) (head major n) n :=
  Reads.orErr (readHead_head hm hn)

/-- One level of nesting: if the items inside are read back, so is the item. -/
theorem reads_itemWith {encodes : Item → Bytes → Prop} {nested : Parser Unit Item}
    (hnested : ∀ item bs, encodes item bs → Reads nested bs item) {item : Item} {bs : Bytes}
    (h : EncodesWith encodes item bs) : Reads (readItemWith nested) bs item := by
  intro rest
  cases item with
  | uint n =>
    obtain ⟨hn, rfl⟩ := h
    rw [readItemWith, Cbor.uint, headD_head (by omega)]
    exact (reads_u64 () hn).bind_last (Reads.pure (Item.uint n)) rest
  | bytes content =>
    obtain ⟨hlen, rfl⟩ := h
    rw [readItemWith, Cbor.bytes, List.append_assoc, headD_head (by omega), ← List.append_assoc]
    exact (reads_bytes () hlen).bind_last (Reads.pure (Item.bytes content)) rest
  | text content =>
    obtain ⟨hlen, rfl⟩ := h
    rw [readItemWith, Cbor.str, List.append_assoc, headD_head (by omega), ← List.append_assoc]
    exact (reads_str () hlen).bind_last (Reads.pure (Item.text content)) rest
  | array items =>
    obtain ⟨hlen, parts, hparts, rfl⟩ := h
    rw [readItemWith, Cbor.array, List.append_assoc, headD_head (by omega), ← List.append_assoc]
    have hitems := reads_forall₂ (hparts.imp hnested)
    exact (reads_head (by omega) hlen).bind (hitems.bind_last (Reads.pure (Item.array items))) rest
  | map entries =>
    obtain ⟨hlen, _, parts, hparts, rfl⟩ := h
    rw [readItemWith, Cbor.map, List.append_assoc, headD_head (by omega), ← List.append_assoc]
    have hentries : Reads (Parser.times (do
        let key ← nested
        let value ← nested
        pure (key, value)) entries.length) parts.flatten entries := by
      refine reads_forall₂ (hparts.imp ?_)
      rintro entry part ⟨key, value, hkey, hvalue, rfl⟩
      exact (hnested _ _ hkey).bind ((hnested _ _ hvalue).bind_last (Reads.pure entry))
    exact (reads_head (by omega) hlen).bind (hentries.bind_last (Reads.pure (Item.map entries))) rest
  | other refusal => exact h.elim

theorem reads_item {depth : ℕ} {item : Item} {bs : Bytes} (h : Encodes depth item bs) :
    Reads (readItem depth) bs item := by
  induction depth generalizing item bs with
  | zero => exact reads_itemWith (fun _ _ h => h.elim) h
  | succ depth ih => exact reads_itemWith (fun _ _ => ih) h

theorem Encodes.ne_nil {depth : ℕ} {item : Item} {bs : Bytes} (h : Encodes depth item bs) :
    bs ≠ [] := by
  rintro rfl
  -- an item read from no bytes could be read before any others
  have hread := reads_item h []
  cases depth <;> simp [readItem, readItemWith, Parser.orErr, readU64, readUintBelow, readHead,
    okOr, bind, StateT.bind, Except.bind] at hread

/-- The encoding of one item decodes to that item alone. -/
theorem decodeAll_eq_ok {depth : ℕ} {item : Item} {bs : Bytes} (h : Encodes depth item bs) :
    decodeAll depth bs = .ok [item] := by
  have hread := reads_item h []
  rw [List.append_nil] at hread
  cases bs with
  | nil => exact absurd rfl h.ne_nil
  | cons b bs =>
    rw [decodeAll, List.length_cons, readItems, hread]
    cases hlen : bs.length <;> rfl

end HideProtocol.Lib.Cbor
