import HideProtocol.Lib.Program

/-!
# Programs side by side

Several programs take turns on one set of cells, one access at a turn, in whatever order. A program
that replaces a cell by something it has computed from an earlier content of the cell takes back
what others have put there in between. Whether a run takes anything back is settled by its
replacements alone: `run_related`.
-/

namespace HideProtocol.Lib

/-- Programs under way, one for each `i : ι`, and the cells. -/
structure Race (ι C V ε α : Type) where
  processes : ι → Process C V ε α
  cells : Cells C V

namespace Process
variable {C V ε α : Type}

/-- The next access of the process puts `value` into `cell`, whatever is there. -/
def Writes (process : Process C V ε α) (cell : C) (value : V) : Prop :=
  ∃ next, process.program = .write cell value next

end Process

namespace Race
variable {ι C V ε α : Type} [DecidableEq ι] [DecidableEq C]

/-- All programs at their start. -/
def start (programs : ι → Program C V ε α) (cells : Cells C V) : Race ι C V ε α where
  processes i := ⟨programs i, fun _ => none⟩
  cells

/-- One access by program `i`. -/
def step (race : Race ι C V ε α) (i : ι) : Race ι C V ε α where
  processes := Function.update race.processes i ((race.processes i).step race.cells).1
  cells := ((race.processes i).step race.cells).2

/-- A schedule says whose turn it is. A program that has no more turns has crashed. -/
def run (race : Race ι C V ε α) (schedule : List ι) : Race ι C V ε α := schedule.foldl step race

variable {race : Race ι C V ε α}

theorem run_append (s t : List ι) : race.run (s ++ t) = (race.run s).run t := List.foldl_append

theorem run_snoc (s : List ι) (i : ι) : race.run (s ++ [i]) = (race.run s).step i :=
  run_append s [i]

theorem step_self (i : ι) :
    (race.step i).processes i = ((race.processes i).step race.cells).1 :=
  Function.update_self _ _ _

theorem step_other {i j : ι} (h : j ≠ i) : (race.step i).processes j = race.processes j :=
  Function.update_of_ne h _ _

/-- What every access keeps, every run keeps. -/
theorem run_invariant {Inv : Race ι C V ε α → Prop} (hstep : ∀ race i, Inv race → Inv (race.step i))
    (h : Inv race) (schedule : List ι) : Inv (race.run schedule) := by
  induction schedule generalizing race with
  | nil => exact h
  | cons i schedule ih => exact ih (hstep race i h)

/-- A relation that composes holds between any two moments of a run as soon as it holds across
every access. -/
theorem run_related {r : Cells C V → Cells C V → Prop} (hrefl : ∀ cells, r cells cells)
    (htrans : ∀ {a b c}, r a b → r b c → r a c) {schedule : List ι}
    (hstep : ∀ s i, s ++ [i] <+: schedule → r (race.run s).cells (race.run (s ++ [i])).cells)
    (s t : List ι) (h : s ++ t <+: schedule) : r (race.run s).cells (race.run (s ++ t)).cells := by
  induction t using List.reverseRecOn with
  | nil =>
    rw [List.append_nil]
    exact hrefl _
  | append_singleton t i ih =>
    rw [← List.append_assoc] at h ⊢
    exact htrans (ih ((List.prefix_append _ _).trans h)) (hstep _ i h)

/-- The content a program has last seen in a cell was in the cell at some moment: it was there at
the start of the race or it has been put there since. -/
theorem view_of_run {programs : ι → Program C V ε α} {cells : Cells C V} (schedule : List ι) (i : ι)
    (cell : C) {value : V}
    (h : (((start programs cells).run schedule).processes i).view cell = some value) :
    ∃ s t, s ++ t = schedule ∧ ((start programs cells).run s).cells cell = some value := by
  induction schedule using List.reverseRecOn with
  | nil => cases h
  | append_singleton schedule j ih =>
    -- either the view is as it was, or it is what the cell holds now
    have hcases : (((start programs cells).run (schedule ++ [j])).processes i).view cell =
          (((start programs cells).run schedule).processes i).view cell ∨
        (((start programs cells).run (schedule ++ [j])).processes i).view cell =
          ((start programs cells).run (schedule ++ [j])).cells cell := by
      rw [run_snoc]
      generalize (start programs cells).run schedule = race
      by_cases hij : i = j
      · subst hij
        rw [step_self]
        show _ ∨ _ = ((race.processes i).step race.cells).2 cell
        rcases race.processes i with ⟨program, view⟩
        cases program with
        | done result => exact Or.inl rfl
        | read other next =>
          by_cases hcell : cell = other
          · subst hcell
            exact Or.inr (Function.update_self _ _ _)
          · exact Or.inl (Function.update_of_ne hcell _ _)
        | write other value next =>
          by_cases hcell : cell = other
          · subst hcell
            right
            show Function.update view cell (some value) cell =
              Function.update race.cells cell (some value) cell
            rw [Function.update_self, Function.update_self]
          · exact Or.inl (Function.update_of_ne hcell _ _)
        | create other value next =>
          by_cases hcell : cell = other
          · subst hcell
            right
            simp only [Process.step]
            split
            · exact Function.update_self _ _ _
            · show Function.update view cell (some value) cell =
                Function.update race.cells cell (some value) cell
              rw [Function.update_self, Function.update_self]
          · left
            simp only [Process.step]
            split
            · exact Function.update_of_ne hcell _ _
            · exact Function.update_of_ne hcell _ _
      · left
        rw [step_other hij]
    rcases hcases with hold | hnew
    · obtain ⟨s, t, hst, hs⟩ := ih (hold ▸ h)
      exact ⟨s, t ++ [j], by rw [← List.append_assoc, hst], hs⟩
    · exact ⟨schedule ++ [j], [], List.append_nil _, hnew ▸ h⟩

end Race

end HideProtocol.Lib
