import Mathlib.Data.List.Induction
import Mathlib.Tactic.Ring

/-!
# Byte strings

Byte strings are lists of `UInt8`. This file holds what every wire format needs of them:

* fixed-width big-endian integers (`beBytes`, `ofBe`) and their round trips;
* conversion of a slice to a fixed-size array (`tryInto`);
* UTF-8 text (`utf8`, `fromUtf8`);
* **self-delimiting** encodings: encodings that can be cancelled in front of any two
  continuations. They are closed under length prefixes, fixed-size arrays and counted
  sequences, which is all that injectivity of a signed or hashed layout rests on.
-/

namespace HideProtocol.Lib

/-- A byte string. -/
abbrev Bytes := List UInt8

/-! ## Big-endian integers -/

/-- The `w` low bytes of `n`, most significant first (`to_be_bytes` at width `w`). -/
def beBytes : ℕ → ℕ → Bytes
  | 0, _ => []
  | w + 1, n => beBytes w (n / 256) ++ [UInt8.ofNat n]

/-- The integer a big-endian byte string denotes (`from_be_bytes`). -/
def ofBe (bs : Bytes) : ℕ := bs.foldl (fun acc b => acc * 256 + b.toNat) 0

@[simp] theorem length_beBytes (w n : ℕ) : (beBytes w n).length = w := by
  induction w generalizing n with
  | zero => rfl
  | succ w ih => simp [beBytes, ih]

theorem ofBe_append_singleton (bs : Bytes) (b : UInt8) :
    ofBe (bs ++ [b]) = ofBe bs * 256 + b.toNat := by
  simp [ofBe, List.foldl_append]

/-- Reading back `w` big-endian bytes recovers every value they can hold. -/
theorem ofBe_beBytes {w n : ℕ} (h : n < 256 ^ w) : ofBe (beBytes w n) = n := by
  induction w generalizing n with
  | zero =>
    have : n = 0 := by simpa using h
    simp [beBytes, ofBe, this]
  | succ w ih =>
    have hdiv : n / 256 < 256 ^ w := by
      rw [Nat.div_lt_iff_lt_mul (by norm_num), ← pow_succ]
      exact h
    rw [beBytes, ofBe_append_singleton, ih hdiv, UInt8.toNat_ofNat']
    omega

theorem beBytes_inj {w n m : ℕ} (hn : n < 256 ^ w) (hm : m < 256 ^ w)
    (h : beBytes w n = beBytes w m) : n = m := by
  rw [← ofBe_beBytes hn, h, ofBe_beBytes hm]

theorem ofBe_lt (bs : Bytes) : ofBe bs < 256 ^ bs.length := by
  induction bs using List.reverseRecOn with
  | nil => simp [ofBe]
  | append_singleton bs b ih =>
    have hb : b.toNat < 256 := b.toNat_lt
    rw [ofBe_append_singleton, List.length_append, List.length_singleton, pow_succ]
    omega

/-- Writing back what `w` big-endian bytes denote recovers the bytes. -/
theorem beBytes_ofBe {w : ℕ} {bs : Bytes} (h : bs.length = w) : beBytes w (ofBe bs) = bs := by
  subst h
  induction bs using List.reverseRecOn with
  | nil => rfl
  | append_singleton bs b ih =>
    have hb : b.toNat < 256 := b.toNat_lt
    have hdiv : (ofBe bs * 256 + b.toNat) / 256 = ofBe bs := by omega
    have hlow : UInt8.ofNat (ofBe bs * 256 + b.toNat) = b := by
      apply UInt8.toNat_inj.mp
      rw [UInt8.toNat_ofNat']
      omega
    rw [List.length_append, List.length_singleton, beBytes, ofBe_append_singleton, hdiv, ih, hlow]

/-! ## Little-endian values -/

/-- The integer a little-endian byte string denotes. -/
def ofLe (bs : Bytes) : ℕ := ofBe bs.reverse

theorem ofLe_cons (b : UInt8) (bs : Bytes) : ofLe (b :: bs) = ofLe bs * 256 + b.toNat := by
  rw [ofLe, List.reverse_cons, ofBe_append_singleton]
  rfl

theorem ofLe_lt (bs : Bytes) : ofLe bs < 256 ^ bs.length := by
  rw [← List.length_reverse]
  exact ofBe_lt bs.reverse

theorem ofLe_append (bs bs' : Bytes) : ofLe (bs ++ bs') = ofLe bs + 256 ^ bs.length * ofLe bs' := by
  induction bs with
  | nil =>
    rw [List.nil_append, List.length_nil, pow_zero, one_mul]
    exact (Nat.zero_add _).symm
  | cons b bs ih =>
    rw [List.cons_append, ofLe_cons, ih, ofLe_cons, List.length_cons]
    ring

/-- Strings of one length are told apart by their values. -/
theorem ofLe_inj {bs bs' : Bytes} (hlen : bs.length = bs'.length) (h : ofLe bs = ofLe bs') :
    bs = bs' := by
  have hreverse : ∀ {bs : Bytes}, beBytes bs.length (ofLe bs) = bs.reverse :=
    beBytes_ofBe List.length_reverse
  apply List.reverse_inj.mp
  rw [← hreverse, ← hreverse, h, hlen]

/-! ## Fixed-size arrays -/

/-- `try_into` from a slice to an array of `n` bytes. -/
def tryInto (n : ℕ) (bs : Bytes) : Option (Vector UInt8 n) :=
  if h : bs.length = n then some ⟨bs.toArray, by simpa using h⟩ else none

@[simp] theorem tryInto_toList {n : ℕ} (v : Vector UInt8 n) : tryInto n v.toList = some v := by
  rw [tryInto, dif_pos (by simp)]
  congr

theorem tryInto_eq_some {n : ℕ} {bs : Bytes} {v : Vector UInt8 n} (h : tryInto n bs = some v) :
    bs = v.toList := by
  unfold tryInto at h
  split at h
  · cases h
    simp
  · cases h

theorem exists_vector {n : ℕ} {bs : Bytes} (h : bs.length = n) :
    ∃ v : Vector UInt8 n, v.toList = bs :=
  ⟨⟨bs.toArray, by simpa using h⟩, by simp⟩

/-- A byte string whose length is a multiple of `n` is a row of vectors. -/
theorem exists_vectors {n count : ℕ} {bs : Bytes} (h : bs.length = n * count) :
    ∃ vs : List (Vector UInt8 n), vs.length = count ∧ vs.flatMap Vector.toList = bs := by
  induction count generalizing bs with
  | zero =>
    rw [Nat.mul_zero] at h
    exact ⟨[], rfl, (List.eq_nil_of_length_eq_zero h).symm⟩
  | succ count ih =>
    rw [Nat.mul_succ] at h
    obtain ⟨v, hv⟩ := exists_vector (List.length_take_of_le (by omega : n ≤ bs.length))
    obtain ⟨vs, hlen, hvs⟩ := ih (by rw [List.length_drop]; omega : (bs.drop n).length = n * count)
    refine ⟨v :: vs, by rw [List.length_cons, hlen], ?_⟩
    rw [List.flatMap_cons, hv, hvs, List.take_append_drop]

/-- `split_at_checked`. -/
def splitAtChecked (n : ℕ) (bs : Bytes) : Option (Bytes × Bytes) :=
  if n ≤ bs.length then some (bs.take n, bs.drop n) else none

theorem splitAtChecked_eq_some {n : ℕ} {bs left right : Bytes} :
    splitAtChecked n bs = some (left, right) ↔ bs = left ++ right ∧ left.length = n := by
  unfold splitAtChecked
  constructor
  · intro h
    split at h
    next hle =>
      cases h
      exact ⟨(List.take_append_drop n bs).symm, List.length_take_of_le hle⟩
    next => cases h
  · rintro ⟨rfl, rfl⟩
    simp

/-- A concatenation of pieces of at most `k` bytes. -/
theorem length_flatMap_le {α : Type} {f : α → Bytes} {k : ℕ} {xs : List α}
    (h : ∀ x ∈ xs, (f x).length ≤ k) : (xs.flatMap f).length ≤ xs.length * k := by
  induction xs with
  | nil => simp
  | cons x xs ih =>
    have hx := h x List.mem_cons_self
    have hxs := ih fun y hy => h y (List.mem_cons_of_mem _ hy)
    rw [List.flatMap_cons, List.length_append, List.length_cons, Nat.succ_mul]
    omega

/-! ## UTF-8 text -/

/-- The UTF-8 bytes of a string (`as_bytes`). -/
def utf8 (s : String) : Bytes := s.toByteArray.data.toList

/-- Checked conversion from UTF-8 (`from_utf8`). -/
def fromUtf8 (bs : Bytes) : Option String := String.fromUTF8? ⟨bs.toArray⟩

@[simp] theorem fromUtf8_utf8 (s : String) : fromUtf8 (utf8 s) = some s := by
  have harr : (⟨(utf8 s).toArray⟩ : ByteArray) = s.toByteArray := by
    simp only [utf8, Array.toArray_toList]
  rw [fromUtf8, harr, String.fromUTF8?, dif_pos s.isValidUTF8]
  rfl

theorem utf8_of_fromUtf8 {bs : Bytes} {s : String} (h : fromUtf8 bs = some s) : utf8 s = bs := by
  unfold fromUtf8 String.fromUTF8? at h
  split at h
  · rw [← Option.some.inj h]
    rfl
  · cases h

theorem utf8_inj {s t : String} (h : utf8 s = utf8 t) : s = t := by
  have hs := fromUtf8_utf8 s
  rw [h, fromUtf8_utf8] at hs
  exact (Option.some.inj hs).symm

/-! ## Self-delimiting encodings -/

section SelfDelimiting
variable {α β : Type}

/-- On values satisfying `P`, an encoding can be cancelled in front of any continuation:
it neither runs into what follows nor has two readings. -/
def SelfDelimiting (P : α → Prop) (enc : α → Bytes) : Prop :=
  ∀ a b x y, P a → P b → enc a ++ x = enc b ++ y → a = b ∧ x = y

/-- Encodings of one fixed length that are injective are self-delimiting. -/
theorem selfDelimiting_of_length {P : α → Prop} {enc : α → Bytes} (w : ℕ)
    (hlen : ∀ a, P a → (enc a).length = w) (hinj : ∀ a b, P a → P b → enc a = enc b → a = b) :
    SelfDelimiting P enc := by
  intro a b x y ha hb h
  obtain ⟨h₁, h₂⟩ := List.append_inj h (by rw [hlen a ha, hlen b hb])
  exact ⟨hinj a b ha hb h₁, h₂⟩

/-- A fixed-width big-endian integer. -/
theorem selfDelimiting_beBytes (w : ℕ) : SelfDelimiting (· < 256 ^ w) (beBytes w) :=
  selfDelimiting_of_length w (fun _ _ => length_beBytes w _) fun _ _ ha hb h => beBytes_inj ha hb h

/-- A byte string of known length. -/
theorem selfDelimiting_fixed (w : ℕ) :
    SelfDelimiting (fun bs : Bytes => bs.length = w) (fun bs => bs) :=
  selfDelimiting_of_length w (fun _ h => h) fun _ _ _ _ h => h

/-- A fixed-size array. -/
theorem selfDelimiting_vector (w : ℕ) :
    SelfDelimiting (fun _ : Vector UInt8 w => True) (fun v => v.toList) :=
  selfDelimiting_of_length w (fun _ _ => Vector.length_toList) fun _ _ _ _ h =>
    Vector.toList_inj.mp h

/-- A byte string behind its length, as `w` big-endian bytes. -/
def lenPrefixed (w : ℕ) (bs : Bytes) : Bytes := beBytes w bs.length ++ bs

theorem selfDelimiting_lenPrefixed (w : ℕ) :
    SelfDelimiting (fun bs : Bytes => bs.length < 256 ^ w) (lenPrefixed w) := by
  intro a b x y ha hb h
  simp only [lenPrefixed, List.append_assoc] at h
  obtain ⟨hlen, h⟩ := selfDelimiting_beBytes w _ _ _ _ ha hb h
  exact List.append_inj h hlen

/-- With nothing after it, a self-delimiting encoding is injective. -/
theorem SelfDelimiting.inj {P : α → Prop} {enc : α → Bytes} (h : SelfDelimiting P enc) {a b : α}
    (ha : P a) (hb : P b) (heq : enc a = enc b) : a = b :=
  (h a b [] [] ha hb (by rw [heq])).1

/-- Two self-delimiting fields in a row. -/
theorem SelfDelimiting.append {P : α → Prop} {Q : β → Prop} {enc : α → Bytes} {enc' : β → Bytes}
    (h : SelfDelimiting P enc) (h' : SelfDelimiting Q enc') :
    SelfDelimiting (fun p : α × β => P p.1 ∧ Q p.2) (fun p => enc p.1 ++ enc' p.2) := by
  rintro ⟨a, a'⟩ ⟨b, b'⟩ x y ⟨ha, ha'⟩ ⟨hb, hb'⟩ heq
  simp only [List.append_assoc] at heq
  obtain ⟨hab, hrest⟩ := h _ _ _ _ ha hb heq
  obtain ⟨hab', hxy⟩ := h' _ _ _ _ ha' hb' hrest
  exact ⟨Prod.ext hab hab', hxy⟩

/-- Sequences of self-delimiting elements of equal count. -/
theorem SelfDelimiting.flatMap {P : α → Prop} {enc : α → Bytes} (h : SelfDelimiting P enc)
    {xs ys : List α} {x y : Bytes} (hlen : xs.length = ys.length)
    (hxs : ∀ a ∈ xs, P a) (hys : ∀ a ∈ ys, P a)
    (heq : xs.flatMap enc ++ x = ys.flatMap enc ++ y) : xs = ys ∧ x = y := by
  induction xs generalizing ys with
  | nil =>
    have : ys = [] := by simpa using hlen.symm
    subst this
    simpa using heq
  | cons a xs ih =>
    cases ys with
    | nil => simp at hlen
    | cons b ys =>
      simp only [List.flatMap_cons, List.append_assoc] at heq
      obtain ⟨hab, hrest⟩ := h _ _ _ _ (hxs a (by simp)) (hys b (by simp)) heq
      obtain ⟨htail, hxy⟩ := ih (by simpa using hlen) (fun c hc => hxs c (by simp [hc]))
        (fun c hc => hys c (by simp [hc])) hrest
      exact ⟨by rw [hab, htail], hxy⟩

/-- A sequence behind its element count. -/
theorem SelfDelimiting.counted {P : α → Prop} {enc : α → Bytes} (h : SelfDelimiting P enc)
    (w : ℕ) :
    SelfDelimiting (fun xs : List α => xs.length < 256 ^ w ∧ ∀ a ∈ xs, P a)
      (fun xs => beBytes w xs.length ++ xs.flatMap enc) := by
  rintro xs ys x y ⟨hx, hxs⟩ ⟨hy, hys⟩ heq
  simp only [List.append_assoc] at heq
  obtain ⟨hlen, heq⟩ := selfDelimiting_beBytes w _ _ _ _ hx hy heq
  exact h.flatMap hlen hxs hys heq

end SelfDelimiting

end HideProtocol.Lib
