import Mathlib.Data.List.Induction

/-!
# Shared cells

A value behind a lock that several handles share: a handle is created with a cell of its own, a
clone of a handle has the same cell, and a write through any handle is seen through all of them.
Whatever the order of the calls, a read returns what the latest call for that cell wrote
(`read_run`).
-/

namespace HideProtocol.Lib

/-- Cells and the handles to them: a handle is its position, and stands for a cell. -/
structure Shared (α : Type) where
  cells : List α
  handles : List ℕ
  valid : ∀ cell ∈ handles, cell < cells.length

namespace Shared
variable {α : Type}

/-- Calls on handles, in whatever order they come. Calls on handles there are none of do nothing. -/
inductive Call (α : Type) where
  | create (value : α)
  | clone (handle : ℕ)
  | write (handle : ℕ) (value : α)
deriving DecidableEq, Repr

def empty : Shared α := ⟨[], [], by simp⟩

def create (self : Shared α) (value : α) : Shared α where
  cells := self.cells ++ [value]
  handles := self.handles ++ [self.cells.length]
  valid := by
    intro cell hcell
    rw [List.length_append, List.length_singleton]
    rcases List.mem_append.mp hcell with hcell | hcell
    · have := self.valid cell hcell
      omega
    · rw [List.mem_singleton.mp hcell]
      omega

def clone (self : Shared α) (handle : ℕ) : Shared α where
  cells := self.cells
  handles := self.handles ++ (self.handles[handle]?).toList
  valid := by
    intro cell hcell
    rcases List.mem_append.mp hcell with hcell | hcell
    · exact self.valid cell hcell
    · exact self.valid cell (List.mem_of_getElem? (Option.mem_toList.mp hcell))

def write (self : Shared α) (handle : ℕ) (value : α) : Shared α where
  cells := self.handles[handle]?.elim self.cells fun cell => self.cells.set cell value
  handles := self.handles
  valid := by
    intro cell hcell
    rcases self.handles[handle]? with _ | found
    · exact self.valid cell hcell
    · show cell < (self.cells.set found value).length
      rw [List.length_set]
      exact self.valid cell hcell

def read (self : Shared α) (handle : ℕ) : Option α :=
  self.handles[handle]?.bind fun cell => self.cells[cell]?

def step (self : Shared α) : Call α → Shared α
  | .create value => self.create value
  | .clone handle => self.clone handle
  | .write handle value => self.write handle value

/-- What a sequence of calls leaves. -/
def run (calls : List (Call α)) : Shared α := calls.foldl step empty

theorem run_append (calls : List (Call α)) (call : Call α) :
    run (calls ++ [call]) = (run calls).step call := by
  unfold run
  rw [List.foldl_append]
  rfl

/-- What a call puts into a cell, if it is for that cell. -/
def sets (self : Shared α) (cell : ℕ) : Call α → Option α
  | .create value => if cell = self.cells.length then some value else none
  | .clone _ => none
  | .write handle value => if self.handles[handle]? = some cell then some value else none

/-- A call changes the cell it is for, and no other. -/
theorem cells_step (self : Shared α) (call : Call α) (cell : ℕ) :
    (self.step call).cells[cell]? = (self.sets cell call).or self.cells[cell]? := by
  cases call with
  | create value =>
    show (self.cells ++ [value])[cell]? =
      (if cell = self.cells.length then some value else none).or self.cells[cell]?
    by_cases hcell : cell = self.cells.length
    · rw [if_pos hcell, hcell, List.getElem?_concat_length]
      rfl
    · rw [if_neg hcell, Option.none_or]
      by_cases hlt : cell < self.cells.length
      · rw [List.getElem?_append_left hlt]
      · rw [List.getElem?_eq_none (by simp; omega), List.getElem?_eq_none (by omega)]
  | clone handle => rfl
  | write handle value =>
    show (self.handles[handle]?.elim self.cells fun found => self.cells.set found value)[cell]? =
      (if self.handles[handle]? = some cell then some value else none).or self.cells[cell]?
    rcases hfound : self.handles[handle]? with _ | found
    · rfl
    · have hlt := self.valid found (List.mem_of_getElem? hfound)
      show (self.cells.set found value)[cell]? = _
      by_cases hcell : found = cell
      · rw [← hcell, List.getElem?_set_self hlt, if_pos rfl]
        rfl
      · rw [List.getElem?_set_ne hcell, if_neg (by simpa using hcell), Option.none_or]

/-- The latest call for a cell put `value` into it. -/
def SetLast (calls : List (Call α)) (cell : ℕ) (value : α) : Prop :=
  ∃ before call after, calls = before ++ call :: after ∧ (run before).sets cell call = some value ∧
    ∀ seen later rest, after = seen ++ later :: rest →
      (run (before ++ call :: seen)).sets cell later = none

theorem setLast_append {calls : List (Call α)} {call : Call α} {cell : ℕ} {value : α} :
    SetLast (calls ++ [call]) cell value ↔
      (run calls).sets cell call = some value ∨
        (run calls).sets cell call = none ∧ SetLast calls cell value := by
  constructor
  · rintro ⟨before, first, after, hcalls, hset, hlater⟩
    rcases List.eq_nil_or_concat after with rfl | ⟨after, last, rfl⟩
    · obtain ⟨rfl, hcall⟩ := List.append_inj' hcalls rfl
      left
      rw [(List.cons.inj hcall).1]
      exact hset
    · right
      rw [List.concat_eq_append, ← List.cons_append, ← List.append_assoc] at hcalls
      obtain ⟨rfl, hcall⟩ := List.append_inj' hcalls rfl
      rw [(List.cons.inj hcall).1]
      refine ⟨hlater after last [] (by simp), before, first, after, rfl, hset, ?_⟩
      intro seen later rest hafter
      exact hlater seen later (rest ++ [last]) (by simp [hafter])
  · rintro (hset | ⟨hnone, before, first, after, rfl, hset, hlater⟩)
    · exact ⟨calls, call, [], rfl, hset, by simp⟩
    · refine ⟨before, first, after ++ [call], by simp, hset, ?_⟩
      intro seen later rest hafter
      rcases List.eq_nil_or_concat rest with rfl | ⟨rest, last, rfl⟩
      · obtain ⟨rfl, hcall⟩ := List.append_inj' hafter rfl
        rw [← (List.cons.inj hcall).1]
        exact hnone
      · rw [List.concat_eq_append, ← List.cons_append, ← List.append_assoc] at hafter
        obtain ⟨hafter, -⟩ := List.append_inj' hafter rfl
        exact hlater seen later rest hafter

theorem cells_run {calls : List (Call α)} {cell : ℕ} {value : α} :
    (run calls).cells[cell]? = some value ↔ SetLast calls cell value := by
  induction calls using List.reverseRecOn with
  | nil =>
    constructor
    · intro h
      cases h
    · rintro ⟨before, call, after, hcalls, -⟩
      simp at hcalls
  | append_singleton calls call ih =>
    rw [run_append, cells_step, setLast_append, ← ih]
    rcases (run calls).sets cell call with _ | set
    · simp
    · simp

/-- The latest call, through whatever handle, for the cell of `handle` wrote `value`. -/
def Latest (calls : List (Call α)) (handle : ℕ) (value : α) : Prop :=
  ∃ cell, (run calls).handles[handle]? = some cell ∧ SetLast calls cell value

theorem read_run {calls : List (Call α)} {handle : ℕ} {value : α} :
    (run calls).read handle = some value ↔ Latest calls handle value := by
  unfold read Latest
  rw [Option.bind_eq_some_iff]
  simp only [cells_run]

end Shared

end HideProtocol.Lib
