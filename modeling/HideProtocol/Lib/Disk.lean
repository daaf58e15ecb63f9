import HideProtocol.Lib.Program
import HideProtocol.Lib.Reader

/-!
# A disk that fails

A computation on files: a result, and the files after it. Every step may fail, and how it fails
is an argument of the step. A failed read leaves the files alone; a failed write leaves the first
bytes of what was written. What a whole computation leaves behind is its own responsibility, and
`AllOrNothing` says that it met it.
-/

namespace HideProtocol.Lib

section
variable {C V ε ε' α β : Type}

/-- A result, and what the cells hold after it. -/
structure Disk (C V ε α : Type) where
  run : Cells C V → Except ε α × Cells C V

namespace Disk

instance : Monad (Disk C V ε) where
  pure a := ⟨fun cells => (.ok a, cells)⟩
  bind x f := ⟨fun cells =>
    match x.run cells with
    | (.ok a, after) => (f a).run after
    | (.error e, after) => (.error e, after)⟩

@[ext] theorem ext {x y : Disk C V ε α} (h : ∀ cells, x.run cells = y.run cells) : x = y := by
  cases x
  exact congrArg Disk.mk (funext h)

@[simp] theorem run_pure (a : α) (cells : Cells C V) :
    (pure a : Disk C V ε α).run cells = (.ok a, cells) := rfl

theorem run_bind (x : Disk C V ε α) (f : α → Disk C V ε β) (cells : Cells C V) :
    (x >>= f).run cells = match x.run cells with
      | (.ok a, after) => (f a).run after
      | (.error e, after) => (.error e, after) := rfl

theorem bind_of_ok {x : Disk C V ε α} {cells after : Cells C V} {a : α}
    (h : x.run cells = (.ok a, after)) (f : α → Disk C V ε β) :
    (x >>= f).run cells = (f a).run after := by
  rw [run_bind, h]

theorem bind_of_error {x : Disk C V ε α} {cells after : Cells C V} {e : ε}
    (h : x.run cells = (.error e, after)) (f : α → Disk C V ε β) :
    (x >>= f).run cells = (.error e, after) := by
  rw [run_bind, h]

instance : LawfulMonad (Disk C V ε) :=
  LawfulMonad.mk' (Disk C V ε)
    (by
      intro α x
      apply ext
      intro cells
      show (x >>= pure).run cells = x.run cells
      rcases hrun : x.run cells with ⟨_ | _, _⟩
      · rw [bind_of_error hrun]
      · rw [bind_of_ok hrun, run_pure])
    (fun _ _ => rfl)
    (by
      intro α β γ x f g
      apply ext
      intro cells
      rcases hrun : x.run cells with ⟨_ | _, _⟩
      · rw [bind_of_error hrun, bind_of_error (bind_of_error hrun f)]
      · rw [bind_of_ok hrun, run_bind, bind_of_ok hrun, run_bind])

/-- A result that does not depend on the disk. -/
def lift (x : Except ε α) : Disk C V ε α := ⟨fun cells => (x, cells)⟩

/-- Names the error. -/
def orFail (x : Disk C V ε α) (f : ε → ε') : Disk C V ε' α :=
  ⟨fun cells => (mapErr f (x.run cells).1, (x.run cells).2)⟩

/-- Goes on with the result, whatever it is. -/
def caught (x : Disk C V ε α) : Disk C V ε' (Except ε α) :=
  ⟨fun cells => (.ok (x.run cells).1, (x.run cells).2)⟩

theorem orFail_of_ok {x : Disk C V ε α} {cells after : Cells C V} {a : α}
    (h : x.run cells = (.ok a, after)) (f : ε → ε') : (x.orFail f).run cells = (.ok a, after) := by
  show (mapErr f (x.run cells).1, (x.run cells).2) = _
  rw [h]
  rfl

theorem orFail_of_error {x : Disk C V ε α} {cells after : Cells C V} {e : ε}
    (h : x.run cells = (.error e, after)) (f : ε → ε') :
    (x.orFail f).run cells = (.error (f e), after) := by
  show (mapErr f (x.run cells).1, (x.run cells).2) = _
  rw [h]
  rfl

theorem caught_bind (x : Disk C V ε α) (f : Except ε α → Disk C V ε' β) (cells : Cells C V) :
    (x.caught >>= f).run cells = (f (x.run cells).1).run (x.run cells).2 := rfl

/-! ## Computations that only read -/

/-- Nothing is changed, whatever the result. -/
def ReadOnly (x : Disk C V ε α) : Prop := ∀ cells, (x.run cells).2 = cells

theorem readOnly_pure (a : α) : ReadOnly (pure a : Disk C V ε α) := fun _ => rfl

theorem readOnly_lift (x : Except ε α) : ReadOnly (lift x : Disk C V ε α) := fun _ => rfl

theorem ReadOnly.orFail {x : Disk C V ε α} (h : ReadOnly x) (f : ε → ε') :
    ReadOnly (x.orFail f) := h

theorem ReadOnly.bind {x : Disk C V ε α} {f : α → Disk C V ε β} (hx : ReadOnly x)
    (hf : ∀ a, ReadOnly (f a)) : ReadOnly (x >>= f) := by
  intro cells
  have hcells := hx cells
  rcases hrun : x.run cells with ⟨result, after⟩
  rw [hrun] at hcells
  cases result with
  | error e =>
    rw [bind_of_error hrun]
    exact hcells
  | ok a =>
    rw [bind_of_ok hrun, hf a after]
    exact hcells

theorem readOnly_mapM {f : α → Disk C V ε β} (hf : ∀ a, ReadOnly (f a)) (xs : List α) :
    ReadOnly (xs.mapM f) := by
  induction xs with
  | nil => exact readOnly_pure []
  | cons x xs ih =>
    rw [List.mapM_cons]
    exact (hf x).bind fun _ => ih.bind fun _ => readOnly_pure _

/-- A computation that only reads is followed on the cells it found. -/
theorem bind_eq_ok {x : Disk C V ε α} (hx : ReadOnly x) {f : α → Disk C V ε β}
    {cells : Cells C V} {b : β} :
    ((x >>= f).run cells).1 = .ok b ↔
      ∃ a, (x.run cells).1 = .ok a ∧ ((f a).run cells).1 = .ok b := by
  have hcells := hx cells
  rcases hrun : x.run cells with ⟨result, after⟩
  rw [hrun] at hcells
  cases result with
  | error e =>
    rw [bind_of_error hrun]
    constructor
    · intro h
      cases h
    · intro h
      obtain ⟨_, h, -⟩ := h
      cases h
  | ok a =>
    rw [bind_of_ok hrun, show after = cells from hcells]
    constructor
    · intro h
      exact ⟨a, rfl, h⟩
    · intro h
      obtain ⟨a', ha, h⟩ := h
      rwa [Except.ok.inj ha]

theorem orFail_eq_ok {x : Disk C V ε α} {f : ε → ε'} {cells : Cells C V} {a : α} :
    ((x.orFail f).run cells).1 = .ok a ↔ (x.run cells).1 = .ok a := mapErr_eq_ok

end Disk

end

/-! ## Files -/

/-- `NotFound`. -/
def IoError.notFound : IoError := ⟨2⟩

/-- `AlreadyExists`. -/
def IoError.alreadyExists : IoError := ⟨17⟩

/-- How reading a file goes wrong: at once, or after so many bytes. -/
inductive ReadFault where
  | opening (error : IoError)
  | reading (after : ℕ) (error : IoError)

/-- How writing a new file goes wrong: there is room for so many bytes only, or what was written
does not reach the disk in the end. -/
inductive WriteFault where
  | full (room : ℕ) (error : IoError)
  | flush (kept : ℕ) (error : IoError)

/-- What reading a file of content `content` looks like once it is open. -/
def readerOf (content : Bytes) : Option ReadFault → Reader
  | some (.reading after error) =>
    if after ≤ content.length then Reader.ofBytes (content.take after) ++ [.failed error]
    else Reader.ofBytes content
  | _ => Reader.ofBytes content

/-- The bytes a reader hands out, and the error it stops with instead of an end of input. -/
def Reader.arrives : Reader → Bytes × Option IoError
  | [] => ([], none)
  | .interrupted :: reader => arrives reader
  | .failed error :: _ => ([], some error)
  | .data bytes :: reader =>
    if bytes = [] then ([], none)
    else
      let (more, error) := arrives reader
      (bytes ++ more, error)

namespace Reader

/-- A reader that reports an error before any end of input. -/
inductive Breaks : Reader → Prop
  | failed (error : IoError) (reader : Reader) : Breaks (.failed error :: reader)
  | interrupted {reader : Reader} (h : Breaks reader) : Breaks (.interrupted :: reader)
  | data {reader : Reader} (first : Bytes) (hne : first ≠ []) (h : Breaks reader) :
      Breaks (.data first :: reader)

theorem breaks_ofBytes (bytes : Bytes) (error : IoError) :
    Breaks (ofBytes bytes ++ [.failed error]) := by
  unfold ofBytes
  by_cases h : bytes = []
  · rw [if_pos h]
    exact .failed error []
  · rw [if_neg h]
    exact .data bytes h (.failed error [])

/-- Such a reader never hands out less than it was asked for. -/
theorem readUpTo_of_breaks {reader : Reader} (h : Breaks reader) (want : ℕ) :
    (∃ error after, readUpTo want reader = (.error error, after)) ∨
      ∃ bytes after, readUpTo want reader = (.ok bytes, after) ∧ bytes.length = want ∧
        Breaks after := by
  induction h generalizing want with
  | failed error reader =>
    cases want with
    | zero => exact Or.inr ⟨[], _, by rw [readUpTo], rfl, .failed error reader⟩
    | succ want => exact Or.inl ⟨error, reader, by rw [readUpTo]; exact Nat.succ_ne_zero want⟩
  | @interrupted reader hbreaks ih =>
    cases want with
    | zero => exact Or.inr ⟨[], _, by rw [readUpTo], rfl, .interrupted hbreaks⟩
    | succ want =>
      have hstep : readUpTo (want + 1) (.interrupted :: reader) = readUpTo (want + 1) reader := by
        rw [readUpTo]
        exact Nat.succ_ne_zero want
      rw [hstep]
      exact ih (want + 1)
  | @data reader first hne hbreaks ih =>
    cases want with
    | zero => exact Or.inr ⟨[], _, by rw [readUpTo], rfl, .data first hne hbreaks⟩
    | succ want =>
      rw [readUpTo.eq_def]
      simp only [if_neg hne]
      by_cases hle : first.length ≤ want + 1
      · rw [if_pos hle]
        rcases ih (want + 1 - first.length) with ⟨error, after, hread⟩ |
          ⟨bytes, after, hread, hlen, hafter⟩
        · left
          rw [hread]
          exact ⟨error, after, rfl⟩
        · right
          rw [hread]
          refine ⟨first ++ bytes, after, rfl, ?_, hafter⟩
          rw [List.length_append, hlen]
          omega
      · right
        rw [if_neg hle]
        refine ⟨_, _, rfl, List.length_take_of_le (by omega), .data _ ?_ hbreaks⟩
        rw [← List.length_pos_iff, List.length_drop]
        omega

theorem arrives_of_breaks {reader : Reader} (h : Breaks reader) :
    ∃ bytes error, reader.arrives = (bytes, some error) := by
  induction h with
  | failed error reader => exact ⟨[], error, rfl⟩
  | interrupted _ ih => exact ih
  | data first hne _ ih =>
    obtain ⟨bytes, error, harrives⟩ := ih
    refine ⟨first ++ bytes, error, ?_⟩
    rw [arrives, if_neg hne, harrives]

theorem arrives_ofBytes (bytes : Bytes) : (ofBytes bytes).arrives = (bytes, none) := by
  unfold ofBytes
  by_cases h : bytes = []
  · rw [if_pos h, h]
    rfl
  · rw [if_neg h, arrives, if_neg h]
    show (bytes ++ [], none) = _
    rw [List.append_nil]

theorem arrives_ofBytes_failed (bytes : Bytes) (error : IoError) :
    arrives (ofBytes bytes ++ [.failed error]) = (bytes, some error) := by
  unfold ofBytes
  by_cases h : bytes = []
  · rw [if_pos h, h]
    rfl
  · rw [if_neg h, List.singleton_append, arrives, if_neg h]
    show (bytes ++ [], some error) = _
    rw [List.append_nil]

end Reader

/-- All of the content arrives, or its beginning and an error. -/
theorem arrives_readerOf (content : Bytes) (fault : Option ReadFault) :
    (readerOf content fault).arrives = (content, none) ∨
      ∃ n error, (readerOf content fault).arrives = (content.take n, some error) := by
  unfold readerOf
  split
  next after error =>
    split
    · exact Or.inr ⟨after, error, Reader.arrives_ofBytes_failed _ error⟩
    · exact Or.inl (Reader.arrives_ofBytes content)
  next => exact Or.inl (Reader.arrives_ofBytes content)

/-- A fault either comes too late to be seen or breaks the reader. -/
theorem readerOf_cases (content : Bytes) (fault : Option ReadFault) :
    readerOf content fault = Reader.ofBytes content ∨ (readerOf content fault).Breaks := by
  unfold readerOf
  split
  next after error =>
    by_cases h : after ≤ content.length
    · rw [if_pos h]
      exact Or.inr (Reader.breaks_ofBytes _ error)
    · rw [if_neg h]
      exact Or.inl rfl
  next => exact Or.inl rfl

/-- Writing `bytes` meets no fault. -/
def Fits (bytes : Bytes) : Option WriteFault → Prop
  | none => True
  | some (.full room _) => bytes.length ≤ room
  | some (.flush _ _) => False

/-- The bytes that reach the file. -/
def kept (bytes : Bytes) : Option WriteFault → Bytes
  | none => bytes
  | some (.full room _) => bytes.take room
  | some (.flush kept _) => bytes.take kept

namespace Disk
section
variable {C ε α : Type} [DecidableEq C]

/-- `File::open`: the file as a reader. -/
def openFile (path : C) (fault : Option ReadFault) : Disk C Bytes IoError Reader :=
  ⟨fun files =>
    (match fault, files path with
      | some (.opening error), _ => .error error
      | _, none => .error .notFound
      | _, some content => .ok (readerOf content fault), files)⟩

/-- `File::create_new`. -/
def createNew (path : C) (fault : Option IoError) : Disk C Bytes IoError Unit :=
  ⟨fun files =>
    match fault, files path with
    | some error, _ => (.error error, files)
    | none, some _ => (.error .alreadyExists, files)
    | none, none => (.ok (), Function.update files path (some []))⟩

/-- Fills a new file with what a computation wrote. A write that does not fit ends the
computation; an error of the computation leaves what was written so far; and what a successful
one wrote may still not reach the disk. -/
def fill (path : C) (fault : Option WriteFault) (onFull onFlush : IoError → ε) (bytes : Bytes)
    (result : Except ε α) : Disk C Bytes ε α :=
  ⟨fun files =>
    (match fault, result with
      | none, result => result
      | some (.full room error), result =>
        if bytes.length ≤ room then result else .error (onFull error)
      | some (.flush _ _), .error e => .error e
      | some (.flush _ error), .ok _ => .error (onFlush error),
     Function.update files path (some (kept bytes fault)))⟩

/-- `std::fs::rename`, which replaces what is there. -/
def rename (old new : C) (fault : Option IoError) : Disk C Bytes IoError Unit :=
  ⟨fun files =>
    match fault, files old with
    | some error, _ => (.error error, files)
    | none, none => (.error .notFound, files)
    | none, some content =>
      (.ok (), Function.update (Function.update files old none) new (some content))⟩

/-- A rename that refuses to replace what is there. -/
def persistNoclobber (old new : C) (fault : Option IoError) : Disk C Bytes IoError Unit :=
  ⟨fun files =>
    match fault, files old, files new with
    | some error, _, _ => (.error error, files)
    | none, none, _ => (.error .notFound, files)
    | none, some _, some _ => (.error .alreadyExists, files)
    | none, some content, none =>
      (.ok (), Function.update (Function.update files old none) new (some content))⟩

/-- `std::fs::remove_file`. -/
def removeFile (path : C) (fault : Option IoError) : Disk C Bytes IoError Unit :=
  ⟨fun files =>
    match fault, files path with
    | some error, _ => (.error error, files)
    | none, none => (.error .notFound, files)
    | none, some _ => (.ok (), Function.update files path none)⟩

/-! ## All or nothing -/

/-- How a computation that found `files` ended: it succeeded, and all it did was to add `outputs`,
or it failed and did nothing. -/
def AllOrNothing (files : Cells C Bytes) (outputs : List (C × Bytes)) :
    Except ε α × Cells C Bytes → Prop
  | (.ok _, after) => (∀ output ∈ outputs, files output.1 = none) ∧ after = files.after outputs
  | (.error _, after) => after = files

section
variable {β : Type} {ε' : Type} {files : Cells C Bytes} {outputs : List (C × Bytes)} {path : C}
  {bytes : Bytes}

omit [DecidableEq C] in
theorem readOnly_openFile (path : C) (fault : Option ReadFault) :
    ReadOnly (openFile path fault) := fun _ => rfl

/-- Reading first changes nothing about it. -/
theorem allOrNothing_bind_iff {x : Disk C Bytes ε α} (hx : ReadOnly x)
    (f : α → Disk C Bytes ε β) :
    AllOrNothing files outputs ((x >>= f).run files) ↔
      ∀ a, (x.run files).1 = .ok a → AllOrNothing files outputs ((f a).run files) := by
  have hfiles := hx files
  rcases hrun : x.run files with ⟨result, after⟩
  rw [hrun] at hfiles
  cases result with
  | error e =>
    rw [bind_of_error hrun]
    exact iff_of_true hfiles fun a ha => by cases ha
  | ok a =>
    rw [bind_of_ok hrun, show after = files from hfiles]
    constructor
    · intro h b hb
      rwa [← Except.ok.inj hb]
    · intro h
      exact h a rfl

theorem createNew_of_none (h : files path = none) :
    (createNew path none).run files = (.ok (), Function.update files path (some [])) := by
  simp only [createNew, h]

/-- A file that is not created changes nothing. -/
theorem createNew_of_refused {fault : Option IoError} (h : ¬(fault = none ∧ files path = none)) :
    ∃ error, (createNew path fault).run files = (.error error, files) := by
  unfold createNew
  cases fault with
  | some error => exact ⟨error, rfl⟩
  | none =>
    rcases hfile : files path with _ | content
    · exact absurd ⟨rfl, hfile⟩ h
    · refine ⟨.alreadyExists, ?_⟩
      simp only [hfile]

/-- What follows a new file is judged by what was there before it. -/
theorem allOrNothing_createNew_iff {fault : Option IoError} (g : IoError → ε)
    (f : Unit → Disk C Bytes ε β) :
    AllOrNothing files outputs (((createNew path fault).orFail g >>= f).run files) ↔
      (fault = none → files path = none →
        AllOrNothing files outputs ((f ()).run (Function.update files path (some [])))) := by
  by_cases h : fault = none ∧ files path = none
  · obtain ⟨rfl, hnone⟩ := h
    rw [bind_of_ok (orFail_of_ok (createNew_of_none hnone) g)]
    exact ⟨fun h _ _ => h, fun h => h rfl hnone⟩
  · obtain ⟨error, herror⟩ := createNew_of_refused h
    rw [bind_of_error (orFail_of_error herror g)]
    exact iff_of_true rfl fun hfault hnone => absurd ⟨hfault, hnone⟩ h

/-! What filling a new file comes to. -/

variable {fault : Option WriteFault} {onFull onFlush : IoError → ε} {result : Except ε α}

theorem fill_of_fits (h : Fits bytes fault) :
    (fill path fault onFull onFlush bytes result).run (Function.update files path (some [])) =
      (result, Function.update files path (some bytes)) := by
  cases fault with
  | none => simp only [fill, kept, Function.update_idem]
  | some fault =>
    cases fault with
    | full room error =>
      have hroom : bytes.length ≤ room := h
      simp only [fill, if_pos hroom, kept, List.take_of_length_le hroom, Function.update_idem]
    | flush kept error => exact absurd h id

theorem fill_of_not_fits (h : ¬Fits bytes fault) :
    ∃ error, (fill path fault onFull onFlush bytes result).run
      (Function.update files path (some [])) =
        (.error error, Function.update files path (some (kept bytes fault))) := by
  cases fault with
  | none => exact absurd trivial h
  | some fault =>
    cases fault with
    | full room error =>
      have hroom : ¬bytes.length ≤ room := h
      refine ⟨onFull error, ?_⟩
      simp only [fill, if_neg hroom, Function.update_idem]
    | flush kept error =>
      cases result with
      | error e => exact ⟨e, by simp only [fill, Function.update_idem]⟩
      | ok a => exact ⟨onFlush error, by simp only [fill, Function.update_idem]⟩

omit [DecidableEq C] in
/-- A file that was not there makes a difference. -/
theorem ne_of_new {after : Cells C Bytes} (h : files path = none)
    (hafter : after path = some bytes) : after ≠ files := by
  intro heq
  rw [heq, h] at hafter
  cases hafter

theorem update_some_ne (h : files path = none) (bytes : Bytes) :
    Function.update files path (some bytes) ≠ files :=
  ne_of_new h (Function.update_self path (some bytes) files)

theorem update_none_of_new (h : files path = none) (bytes : Bytes) :
    Function.update (Function.update files path (some bytes)) path none = files := by
  rw [Function.update_idem, ← h, Function.update_eq_self]

/-- A new file, moved to another name, was only ever there. -/
theorem rename_new (h : files path = none) (new : C) (bytes : Bytes) :
    (rename path new none).run (Function.update files path (some bytes)) =
      (.ok (), Function.update files new (some bytes)) := by
  simp only [rename, Function.update_self, update_none_of_new h]

theorem persistNoclobber_new {new : C} (h : files path = none) (hnew : files new = none)
    (hne : path ≠ new) (bytes : Bytes) :
    (persistNoclobber path new none).run (Function.update files path (some bytes)) =
      (.ok (), Function.update files new (some bytes)) := by
  have hfree : Function.update files path (some bytes) new = none := by
    rw [Function.update_of_ne hne.symm, hnew]
  simp only [persistNoclobber, Function.update_self, hfree, update_none_of_new h]

/-- A file in the way stays there. -/
theorem persistNoclobber_cases {fault : Option IoError} {new : C} (h : files path = none)
    (bytes : Bytes) :
    (files new = none ∧ (persistNoclobber path new fault).run
      (Function.update files path (some bytes)) = (.ok (), Function.update files new (some bytes))) ∨
    ∃ error, (persistNoclobber path new fault).run (Function.update files path (some bytes)) =
      (.error error, Function.update files path (some bytes)) := by
  by_cases hne : path = new
  · right
    cases fault with
    | some error => exact ⟨error, rfl⟩
    | none =>
      refine ⟨.alreadyExists, ?_⟩
      simp only [persistNoclobber, ← hne, Function.update_self]
  · cases fault with
    | some error => exact Or.inr ⟨error, rfl⟩
    | none =>
      cases hnew : files new with
      | none => exact Or.inl ⟨rfl, persistNoclobber_new h hnew hne bytes⟩
      | some content =>
        right
        refine ⟨.alreadyExists, ?_⟩
        simp only [persistNoclobber, Function.update_self, Function.update_of_ne (Ne.symm hne), hnew]

/-- A new file, removed, never was there. -/
theorem removeFile_new (h : files path = none) (bytes : Bytes) :
    (removeFile path none).run (Function.update files path (some bytes)) = (.ok (), files) := by
  simp only [removeFile, Function.update_self, update_none_of_new h]

/-- Filling a new file and stopping is all or nothing exactly when nothing fails. -/
theorem allOrNothing_fill_iff (hnone : files path = none)
    (houtputs : ∀ a, result = .ok a → outputs = [(path, bytes)]) (f : α → β) :
    AllOrNothing files outputs ((fill path fault onFull onFlush bytes result >>= fun a =>
      pure (f a)).run (Function.update files path (some []))) ↔
    (∃ a, result = .ok a) ∧ Fits bytes fault := by
  by_cases hfits : Fits bytes fault
  · cases result with
    | error e =>
      rw [bind_of_error (fill_of_fits hfits)]
      apply iff_of_false
      · exact update_some_ne hnone bytes
      · intro h
        obtain ⟨⟨a, ha⟩, -⟩ := h
        cases ha
    | ok a =>
      rw [bind_of_ok (fill_of_fits hfits), run_pure, houtputs a rfl]
      refine iff_of_true ⟨?_, rfl⟩ ⟨⟨a, rfl⟩, hfits⟩
      intro output houtput
      rw [List.mem_singleton.mp houtput]
      exact hnone
  · obtain ⟨e, hfill⟩ := @fill_of_not_fits _ _ _ _ files path bytes fault onFull onFlush result hfits
    rw [bind_of_error hfill]
    exact iff_of_false (update_some_ne hnone _) fun h => hfits h.2

end

end
end Disk

end HideProtocol.Lib
