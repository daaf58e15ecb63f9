import Mathlib.Data.List.Basic
import Mathlib.Tactic.Ring

/-!
# Slices in chunks

`slice::chunks` and `slice::chunks_exact`: both walk a list `n` elements at a time, the first to
its end and the second as far as whole chunks go.
-/

namespace HideProtocol.Lib

variable {α : Type}

/-- The first `count` pieces of `n` elements. -/
def takeChunks (n : ℕ) : ℕ → List α → List (List α)
  | 0, _ => []
  | count + 1, xs => xs.take n :: takeChunks n count (xs.drop n)

/-- `slice::chunks`: the last chunk may be shorter. -/
def chunks (n : ℕ) (xs : List α) : List (List α) := takeChunks n ((xs.length + n - 1) / n) xs

/-- `slice::chunks_exact`: what is left over is no chunk. -/
def chunksExact (n : ℕ) (xs : List α) : List (List α) := takeChunks n (xs.length / n) xs

@[simp] theorem length_takeChunks (n count : ℕ) (xs : List α) :
    (takeChunks n count xs).length = count := by
  induction count generalizing xs with
  | zero => rfl
  | succ count ih => rw [takeChunks, List.length_cons, ih]

/-- As many pieces as it takes hold everything. -/
theorem flatten_takeChunks {n count : ℕ} {xs : List α} (h : xs.length ≤ count * n) :
    (takeChunks n count xs).flatten = xs := by
  induction count generalizing xs with
  | zero =>
    rw [Nat.zero_mul] at h
    rw [List.eq_nil_of_length_eq_zero (Nat.le_zero.mp h)]
    rfl
  | succ count ih =>
    have hdrop : (xs.drop n).length ≤ count * n := by
      rw [List.length_drop]
      rw [Nat.succ_mul] at h
      omega
    rw [takeChunks, List.flatten_cons, ih hdrop, List.take_append_drop]

/-- Chunks put together again are the slice. -/
theorem flatten_chunks {n : ℕ} (hn : 0 < n) (xs : List α) : (chunks n xs).flatten = xs := by
  apply flatten_takeChunks
  have hdiv := Nat.div_add_mod (xs.length + n - 1) n
  have hmod := Nat.mod_lt (xs.length + n - 1) hn
  rw [Nat.mul_comm] at hdiv
  omega

/-- Every element of a chunk is one of the slice. -/
theorem mem_of_mem_takeChunks {n count : ℕ} {xs chunk : List α} (h : chunk ∈ takeChunks n count xs)
    {x : α} (hx : x ∈ chunk) : x ∈ xs := by
  induction count generalizing xs with
  | zero => cases h
  | succ count ih =>
    rcases List.mem_cons.mp h with rfl | h
    · exact List.mem_of_mem_take hx
    · exact List.mem_of_mem_drop (ih h)

/-- Pieces that the list has elements for are whole. -/
theorem length_of_mem_takeChunks {n count : ℕ} {xs chunk : List α} (hle : count * n ≤ xs.length)
    (h : chunk ∈ takeChunks n count xs) : chunk.length = n := by
  induction count generalizing xs with
  | zero => cases h
  | succ count ih =>
    rw [Nat.succ_mul] at hle
    rcases List.mem_cons.mp h with h | h
    · rw [h, List.length_take_of_le (by omega)]
    · exact ih (by rw [List.length_drop]; omega) h

/-- Pieces of one size, laid out behind each other, are found again. -/
theorem chunksExact_flatMap {β : Type} {n : ℕ} (hn : 0 < n) {f : β → List α} {ys : List β}
    (h : ∀ y, (f y).length = n) : chunksExact n (ys.flatMap f) = ys.map f := by
  have hlen : (ys.flatMap f).length = ys.length * n := by
    induction ys with
    | nil => simp
    | cons y ys ih =>
      rw [List.flatMap_cons, List.length_append, h y, ih, List.length_cons]
      ring
  unfold chunksExact
  rw [hlen, Nat.mul_div_cancel _ hn]
  clear hlen
  induction ys with
  | nil => rfl
  | cons y ys ih =>
    rw [List.flatMap_cons, List.length_cons, takeChunks, List.take_left' (h y),
      List.drop_left' (h y), ih, List.map_cons]

end HideProtocol.Lib
