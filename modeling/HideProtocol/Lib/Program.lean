import Mathlib.Logic.Function.Basic
import HideProtocol.Lib.Parser

/-!
# Programs over cells

A program reads and replaces whole cells and ends with a result. One replacement is atomic;
nothing else is. Alone, a program makes a list of replacements, and a crash keeps an initial part
of them. Beside other programs, it is run one access at a time.
-/

namespace HideProtocol.Lib

section
variable {C V ε α β : Type}

/-- What each cell holds, if anything. -/
abbrev Cells (C V : Type) := C → Option V

/-- Programs by their next access. `create` replaces an empty cell only, and tells whether it
did. -/
inductive Program (C V ε α : Type) where
  | done (result : Except ε α)
  | read (cell : C) (next : Option V → Program C V ε α)
  | write (cell : C) (value : V) (next : Program C V ε α)
  | create (cell : C) (value : V) (next : Bool → Program C V ε α)

namespace Program

/-- Runs a program and then another one on its result. An error ends both. -/
protected def bind : Program C V ε α → (α → Program C V ε β) → Program C V ε β
  | done (.ok a), f => f a
  | done (.error e), _ => done (.error e)
  | read cell next, f => read cell fun value => (next value).bind f
  | write cell value next, f => write cell value (next.bind f)
  | create cell value next, f => create cell value fun created => (next created).bind f

instance : Monad (Program C V ε) where
  pure a := done (.ok a)
  bind := Program.bind

/-- The content of a cell. -/
def get (cell : C) : Program C V ε (Option V) := read cell fun value => done (.ok value)

def put (cell : C) (value : V) : Program C V ε Unit := write cell value (done (.ok ()))

@[simp] theorem done_ok_bind (a : α) (f : α → Program C V ε β) : done (.ok a) >>= f = f a := rfl

@[simp] theorem done_error_bind (e : ε) (f : α → Program C V ε β) :
    done (.error e) >>= f = done (.error e) := rfl

@[simp] theorem get_bind (cell : C) (f : Option V → Program C V ε β) :
    get cell >>= f = read cell f := rfl

@[simp] theorem read_bind (cell : C) (next : Option V → Program C V ε α)
    (f : α → Program C V ε β) : read cell next >>= f = read cell fun value => next value >>= f := rfl

@[simp] theorem create_bind (cell : C) (value : V) (next : Bool → Program C V ε α)
    (f : α → Program C V ε β) :
    create cell value next >>= f = create cell value fun created => next created >>= f := rfl

@[simp] theorem put_bind (cell : C) (value : V) (f : Unit → Program C V ε β) :
    put cell value >>= f = write cell value (f ()) := rfl

theorem bind_assoc {γ : Type} (program : Program C V ε α) (f : α → Program C V ε β)
    (g : β → Program C V ε γ) : program >>= f >>= g = program >>= fun a => f a >>= g := by
  induction program with
  | done result => cases result <;> rfl
  | read cell next ih => exact congrArg (read cell) (funext ih)
  | write cell value next ih => exact congrArg (write cell value) ih
  | create cell value next ih => exact congrArg (create cell value) (funext ih)

/-- Two computations in a row are one. -/
theorem done_bind_done {γ : Type} (x : Except ε α) (y : α → Except ε β)
    (f : β → Program C V ε γ) :
    (done x >>= fun a => done (y a) >>= f) = done (x >>= y) >>= f := by
  cases x <;> rfl

/-! ## Alone -/

variable [DecidableEq C]

/-- The replacements of a whole run, in their order. -/
def writes : Program C V ε α → Cells C V → List (C × V)
  | done _, _ => []
  | read cell next, cells => (next (cells cell)).writes cells
  | write cell value next, cells =>
    (cell, value) :: next.writes (Function.update cells cell (some value))
  | create cell value next, cells =>
    if (cells cell).isSome = true then (next false).writes cells
    else (cell, value) :: (next true).writes (Function.update cells cell (some value))

/-- The result of a whole run. -/
def result : Program C V ε α → Cells C V → Except ε α
  | done result, _ => result
  | read cell next, cells => (next (cells cell)).result cells
  | write cell value next, cells => next.result (Function.update cells cell (some value))
  | create cell value next, cells =>
    if (cells cell).isSome = true then (next false).result cells
    else (next true).result (Function.update cells cell (some value))

section
variable {cells : Cells C V}

@[simp] theorem writes_done (x : Except ε α) : (done x : Program C V ε α).writes cells = [] := rfl

@[simp] theorem result_done (x : Except ε α) : (done x : Program C V ε α).result cells = x := rfl

@[simp] theorem writes_read (cell : C) (next : Option V → Program C V ε α) :
    (read cell next).writes cells = (next (cells cell)).writes cells := rfl

@[simp] theorem result_read (cell : C) (next : Option V → Program C V ε α) :
    (read cell next).result cells = (next (cells cell)).result cells := rfl

@[simp] theorem writes_write (cell : C) (value : V) (next : Program C V ε α) :
    (write cell value next).writes cells =
      (cell, value) :: next.writes (Function.update cells cell (some value)) := rfl

@[simp] theorem result_write (cell : C) (value : V) (next : Program C V ε α) :
    (write cell value next).result cells =
      next.result (Function.update cells cell (some value)) := rfl

theorem writes_create {cell : C} (h : cells cell = none) (value : V)
    (next : Bool → Program C V ε α) : (create cell value next).writes cells =
      (cell, value) :: (next true).writes (Function.update cells cell (some value)) := by
  simp [writes, h]

theorem result_create {cell : C} (h : cells cell = none) (value : V)
    (next : Bool → Program C V ε α) : (create cell value next).result cells =
      (next true).result (Function.update cells cell (some value)) := by
  simp [result, h]

end

end Program

/-! ## Beside others -/

/-- A program under way, and its view of the cells: what it last read or wrote in each. -/
structure Process (C V ε α : Type) where
  program : Program C V ε α
  view : Cells C V

namespace Process
variable [DecidableEq C]

/-- The next access, and the cells after it. A program that has ended stays as it is. -/
def step (process : Process C V ε α) (cells : Cells C V) : Process C V ε α × Cells C V :=
  match process.program with
  | .done _ => (process, cells)
  | .read cell next => (⟨next (cells cell), Function.update process.view cell (cells cell)⟩, cells)
  | .write cell value next =>
    (⟨next, Function.update process.view cell (some value)⟩,
      Function.update cells cell (some value))
  | .create cell value next =>
    if (cells cell).isSome = true then
      (⟨next false, Function.update process.view cell (cells cell)⟩, cells)
    else
      (⟨next true, Function.update process.view cell (some value)⟩,
        Function.update cells cell (some value))

/-- Whether the next access replaces a cell that may be occupied. -/
def writing (process : Process C V ε α) : Bool :=
  match process.program with
  | .write _ _ _ => true
  | _ => false

/-- The program has ended. -/
def ended (process : Process C V ε α) : Bool :=
  match process.program with
  | .done _ => true
  | _ => false

end Process

/-- The cells after some replacements. -/
def Cells.after [DecidableEq C] (cells : Cells C V) (writes : List (C × V)) : Cells C V :=
  writes.foldl (fun cells write => Function.update cells write.1 (some write.2)) cells

/-- What a run leaves that stops after at most `limit` replacements. -/
def Program.stop [DecidableEq C] (program : Program C V ε α) (limit : ℕ) (cells : Cells C V) :
    Cells C V :=
  cells.after ((program.writes cells).take limit)

end

end HideProtocol.Lib
