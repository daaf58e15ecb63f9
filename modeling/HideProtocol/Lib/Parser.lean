import HideProtocol.Lib.Bytes

/-!
# Early returns and pull parsers

Two small vocabularies shared by every decoder:

* `failIf c e`, the early return `if c { return Err(e) }`, and what follows from a
  computation in `Except` having succeeded;
* `Parser ε α`, a reader over the bytes still to be read, and `Reads p bs v`: whatever
  follows, `p` consumes exactly `bs` and yields `v`. `Reads` is closed under sequencing,
  checks and repetition, so that a decoder is shown to undo an encoder field by field.
-/

namespace HideProtocol.Lib

/-! ## Early returns -/

section Except
variable {ε α β : Type}

/-- `if c { return Err(e) }`. -/
def failIf (c : Prop) [Decidable c] (e : ε) : Except ε Unit := if c then .error e else .ok ()

@[simp] theorem failIf_eq_ok {c : Prop} [Decidable c] {e : ε} {u : Unit} :
    failIf c e = .ok u ↔ ¬c := by
  unfold failIf
  split <;> simp_all

theorem failIf_neg {c : Prop} [Decidable c] (e : ε) (h : ¬c) : failIf c e = .ok () := if_neg h

theorem failIf_pos {c : Prop} [Decidable c] (e : ε) (h : c) : failIf c e = .error e := if_pos h

/-- A sequence of two fallible steps succeeded exactly when both did. -/
@[simp] theorem bind_eq_ok {x : Except ε α} {f : α → Except ε β} {b : β} :
    (x >>= f) = .ok b ↔ ∃ a, x = .ok a ∧ f a = .ok b := by
  cases x <;> simp [bind, Except.bind]

@[simp] theorem pure_eq_ok {a b : α} : (pure a : Except ε α) = .ok b ↔ b = a := by
  simp [pure, Except.pure, eq_comm]

@[simp] theorem ok_bind (a : α) (f : α → Except ε β) : (Except.ok a >>= f) = f a := rfl

@[simp] theorem error_bind (e : ε) (f : α → Except ε β) :
    ((Except.error e : Except ε α) >>= f) = .error e := rfl

/-- A check in front of a pure result. -/
theorem check_pure_eq_ok {x : Except ε Unit} {g b : β} :
    (do x; pure g) = Except.ok b ↔ x = .ok () ∧ b = g := by
  simp only [bind_eq_ok, pure_eq_ok]
  exact ⟨fun ⟨_, h⟩ => h, fun h => ⟨(), h⟩⟩

/-- `ok_or(e)`. -/
def okOr (x : Option α) (e : ε) : Except ε α :=
  match x with
  | some a => .ok a
  | none => .error e

@[simp] theorem okOr_eq_ok {x : Option α} {e : ε} {a : α} : okOr x e = .ok a ↔ x = some a := by
  cases x <;> simp [okOr]

@[simp] theorem okOr_some (a : α) (e : ε) : okOr (some a) e = .ok a := rfl

/-- `map_err(f)`. -/
def mapErr {ε' : Type} (f : ε → ε') : Except ε α → Except ε' α
  | .ok a => .ok a
  | .error e => .error (f e)

@[simp] theorem mapErr_eq_ok {ε' : Type} {f : ε → ε'} {x : Except ε α} {a : α} :
    mapErr f x = .ok a ↔ x = .ok a := by
  cases x <;> simp [mapErr]

@[simp] theorem mapErr_ok {ε' : Type} (f : ε → ε') (a : α) :
    mapErr f (.ok a : Except ε α) = .ok a := rfl

/-! Where an error comes from: the first step that fails. -/

theorem bind_eq_error {x : Except ε α} {f : α → Except ε β} {e : ε} :
    (x >>= f) = .error e ↔ x = .error e ∨ ∃ a, x = .ok a ∧ f a = .error e := by
  cases x <;> simp [bind, Except.bind]

theorem pure_eq_error {a : α} {e : ε} : (pure a : Except ε α) = .error e ↔ False := by
  simp [pure, Except.pure]

theorem okOr_eq_error {x : Option α} {e e' : ε} : okOr x e = .error e' ↔ x = none ∧ e = e' := by
  cases x <;> simp [okOr]

theorem mapErr_eq_error {ε' : Type} {f : ε → ε'} {x : Except ε α} {e : ε'} :
    mapErr f x = .error e ↔ ∃ e', x = .error e' ∧ f e' = e := by
  cases x <;> simp [mapErr]

/-! Errors that never come: none of the steps has them. -/

theorem bind_ne_error {x : Except ε α} {f : α → Except ε β} {e : ε} (hx : x ≠ .error e)
    (hf : ∀ a, f a ≠ .error e) : x >>= f ≠ .error e := by
  cases x with
  | ok a => exact hf a
  | error e' => exact fun h => hx (congrArg Except.error (Except.error.inj h))

theorem pure_ne_error {a : α} {e : ε} : (pure a : Except ε α) ≠ .error e := by
  simp [pure, Except.pure]

theorem failIf_ne_error {c : Prop} [Decidable c] {e e' : ε} (h : e ≠ e') :
    failIf c e ≠ .error e' := by
  unfold failIf
  split <;> simp [h]

theorem okOr_ne_error {x : Option α} {e e' : ε} (h : e ≠ e') : okOr x e ≠ .error e' := by
  cases x <;> simp [okOr, h]

theorem mapErr_ne_error {ε' : Type} {f : ε → ε'} {x : Except ε α} {e : ε'} (h : ∀ e', f e' ≠ e) :
    mapErr f x ≠ .error e := by
  cases x <;> simp [mapErr, h]

/-! What a computation yields, whatever its errors are. -/

theorem toOption_eq_some {x : Except ε α} {a : α} : x.toOption = some a ↔ x = .ok a := by
  cases x <;> simp [Except.toOption]

@[simp] theorem toOption_pure (a : α) : (pure a : Except ε α).toOption = some a := rfl

@[simp] theorem toOption_bind (x : Except ε α) (f : α → Except ε β) :
    (x >>= f).toOption = x.toOption.bind fun a => (f a).toOption := by
  cases x <;> rfl

@[simp] theorem toOption_failIf (c : Prop) [Decidable c] (e : ε) :
    (failIf c e).toOption = if c then none else some () := by
  unfold failIf
  split <;> rfl

@[simp] theorem toOption_okOr (x : Option α) (e : ε) : (okOr x e).toOption = x := by
  cases x <;> rfl

@[simp] theorem toOption_mapErr {ε' : Type} (f : ε → ε') (x : Except ε α) :
    (mapErr f x).toOption = x.toOption := by
  cases x <;> rfl

/-- Every result of a traversal is that of some element. -/
theorem exists_of_mem_mapM {f : α → Except ε β} {xs : List α} {ys : List β}
    (h : xs.mapM f = .ok ys) {y : β} (hy : y ∈ ys) : ∃ x ∈ xs, f x = .ok y := by
  induction xs generalizing ys with
  | nil =>
    have : ys = [] := by simpa using h
    simp [this] at hy
  | cons x xs ih =>
    rw [List.mapM_cons] at h
    obtain ⟨z, hz, h⟩ := bind_eq_ok.mp h
    obtain ⟨zs, hzs, h⟩ := bind_eq_ok.mp h
    rw [pure_eq_ok] at h
    rw [h, List.mem_cons] at hy
    rcases hy with hy | hy
    · exact ⟨x, List.mem_cons_self, hy ▸ hz⟩
    · obtain ⟨w, hw, hf⟩ := ih hzs hy
      exact ⟨w, List.mem_cons_of_mem _ hw, hf⟩

/-- Every element of a traversal has its result. -/
theorem mem_mapM_of_mem {f : α → Except ε β} {xs : List α} {ys : List β}
    (h : xs.mapM f = .ok ys) {x : α} (hx : x ∈ xs) : ∃ y ∈ ys, f x = .ok y := by
  induction xs generalizing ys with
  | nil => cases hx
  | cons z xs ih =>
    rw [List.mapM_cons] at h
    obtain ⟨w, hw, h⟩ := bind_eq_ok.mp h
    obtain ⟨ws, hws, h⟩ := bind_eq_ok.mp h
    rw [pure_eq_ok] at h
    rcases List.mem_cons.mp hx with hx | hx
    · exact ⟨w, by simp [h], hx ▸ hw⟩
    · obtain ⟨y, hy, hf⟩ := ih hws hx
      exact ⟨y, by simp [h, hy], hf⟩

/-- The results of a traversal, element by element. -/
theorem forall₂_of_mapM {f : α → Except ε β} {xs : List α} {ys : List β}
    (h : xs.mapM f = .ok ys) : List.Forall₂ (fun x y => f x = .ok y) xs ys := by
  induction xs generalizing ys with
  | nil =>
    cases h
    exact .nil
  | cons x xs ih =>
    rw [List.mapM_cons] at h
    obtain ⟨y, hy, h⟩ := bind_eq_ok.mp h
    obtain ⟨rest, hrest, h⟩ := bind_eq_ok.mp h
    rw [pure_eq_ok.mp h]
    exact .cons hy (ih hrest)

/-- Traversing a list with a function that succeeds on each element. -/
theorem exists_mapM {f : α → Except ε β} {xs : List α} (h : ∀ x ∈ xs, ∃ y, f x = .ok y) :
    ∃ ys, xs.mapM f = .ok ys := by
  induction xs with
  | nil => exact ⟨[], rfl⟩
  | cons x xs ih =>
    obtain ⟨y, hy⟩ := h x List.mem_cons_self
    obtain ⟨ys, hys⟩ := ih fun z hz => h z (List.mem_cons_of_mem _ hz)
    refine ⟨y :: ys, ?_⟩
    rw [List.mapM_cons, hy, ok_bind, hys, ok_bind]
    rfl

/-- Traversing a list with a checked writer: every element passes its check, and the
results are what the writer would have written. -/
theorem mapM_eq_ok {f : α → Except ε β} {P : α → Prop} {g : α → β}
    (hf : ∀ a b, f a = .ok b ↔ P a ∧ b = g a) (xs : List α) (ys : List β) :
    xs.mapM f = .ok ys ↔ (∀ x ∈ xs, P x) ∧ ys = xs.map g := by
  induction xs generalizing ys with
  | nil => simp [List.mapM_nil]
  | cons x xs ih =>
    simp only [List.mapM_cons, bind_eq_ok, hf, ih, pure_eq_ok, List.forall_mem_cons, List.map_cons]
    constructor
    · rintro ⟨b, ⟨hx, rfl⟩, bs, ⟨hxs, rfl⟩, rfl⟩
      exact ⟨⟨hx, hxs⟩, rfl⟩
    · rintro ⟨⟨hx, hxs⟩, rfl⟩
      exact ⟨g x, ⟨hx, rfl⟩, xs.map g, ⟨hxs, rfl⟩, rfl⟩

end Except

/-! ## Pull parsers -/

section Parser
variable {ε α β : Type}

/-- A reader over the bytes that are still unread. -/
abbrev Parser (ε α : Type) := StateT Bytes (Except ε) α

namespace Parser

/-- A step that may fail without reading. -/
def lift (x : Except ε α) : Parser ε α := fun bs =>
  match x with
  | .ok a => .ok (a, bs)
  | .error e => .error e

/-- A partial reader whose failure is reported as `e`. -/
def orErr (e : ε) (p : Bytes → Option (α × Bytes)) : Parser ε α := fun bs => okOr (p bs) e

/-- Runs `p` and renames its errors (`map_err`). -/
def renameErr {ε' : Type} (f : ε → ε') (p : Parser ε α) : Parser ε' α := fun bs => mapErr f (p bs)

/-- Runs `p` a fixed number of times, collecting the results (`for _ in 0..n`). -/
def times (p : Parser ε α) : ℕ → Parser ε (List α)
  | 0 => pure []
  | n + 1 => do
    let a ← p
    let as ← times p n
    pure (a :: as)

theorem bind_eq_ok {p : Parser ε α} {f : α → Parser ε β} {bs : Bytes} {r : β × Bytes} :
    (p >>= f) bs = .ok r ↔ ∃ a rest, p bs = .ok (a, rest) ∧ f a rest = .ok r := by
  show (p bs >>= fun s => f s.1 s.2) = .ok r ↔ _
  rw [Lib.bind_eq_ok]
  exact Prod.exists

theorem lift_eq_ok {x : Except ε α} {bs : Bytes} {r : α × Bytes} :
    lift x bs = .ok r ↔ x = .ok r.1 ∧ r.2 = bs := by
  obtain ⟨a, rest⟩ := r
  cases x <;> simp [lift, eq_comm]

theorem pure_eq_ok {a : α} {bs : Bytes} {r : α × Bytes} :
    (pure a : Parser ε α) bs = .ok r ↔ r = (a, bs) :=
  Lib.pure_eq_ok

/-- As many results as turns, and each has whatever property a single turn gives it. -/
theorem of_times {p : Parser ε α} {P : α → Prop} {n : ℕ} {bs rest : Bytes} {as : List α}
    (hp : ∀ bs a rest, p bs = .ok (a, rest) → P a) (h : p.times n bs = .ok (as, rest)) :
    as.length = n ∧ ∀ a ∈ as, P a := by
  induction n generalizing bs rest as with
  | zero =>
    rw [times, pure_eq_ok, Prod.mk.injEq] at h
    rw [h.1]
    exact ⟨rfl, nofun⟩
  | succ n ih =>
    rw [times, bind_eq_ok] at h
    obtain ⟨a, after, ha, h⟩ := h
    obtain ⟨others, last, hothers, h⟩ := bind_eq_ok.mp h
    rw [pure_eq_ok, Prod.mk.injEq] at h
    obtain ⟨hlen, hall⟩ := ih hothers
    rw [h.1]
    exact ⟨by rw [List.length_cons, hlen], List.forall_mem_cons.mpr ⟨hp _ _ _ ha, hall⟩⟩

end Parser

/-- Whatever follows, `p` consumes exactly `bs` and yields `v`. -/
def Reads (p : Parser ε α) (bs : Bytes) (v : α) : Prop :=
  ∀ rest, p (bs ++ rest) = .ok (v, rest)

theorem Reads.pure (v : α) : Reads (pure v : Parser ε α) [] v := fun _ => rfl

theorem Reads.bind {p : Parser ε α} {f : α → Parser ε β} {bs bs' : Bytes} {v : α} {w : β}
    (hp : Reads p bs v) (hf : Reads (f v) bs' w) : Reads (p >>= f) (bs ++ bs') w := by
  intro rest
  show (p (bs ++ bs' ++ rest) >>= fun r => f r.1 r.2) = .ok (w, rest)
  rw [List.append_assoc, hp]
  exact hf rest

/-- A step that reads nothing, in front of one that reads `bs`. -/
theorem Reads.bind_nil {p : Parser ε α} {f : α → Parser ε β} {bs : Bytes} {v : α} {w : β}
    (hp : Reads p [] v) (hf : Reads (f v) bs w) : Reads (p >>= f) bs w := hp.bind hf

/-- The last step of a sequence reads everything, what follows it nothing. -/
theorem Reads.bind_last {p : Parser ε α} {f : α → Parser ε β} {bs : Bytes} {v : α} {w : β}
    (hp : Reads p bs v) (hf : Reads (f v) [] w) : Reads (p >>= f) bs w := by
  have h := hp.bind hf
  rwa [List.append_nil] at h

theorem Reads.lift {x : Except ε α} {v : α} (h : x = .ok v) : Reads (Parser.lift x) [] v := by
  intro rest
  simp [Parser.lift, h]

theorem Reads.failIf {c : Prop} [Decidable c] (e : ε) (h : ¬c) :
    Reads (Parser.lift (Lib.failIf c e)) [] () := Reads.lift (failIf_neg e h)

theorem Reads.orErr {e : ε} {p : Bytes → Option (α × Bytes)} {bs : Bytes} {v : α}
    (h : ∀ rest, p (bs ++ rest) = some (v, rest)) : Reads (Parser.orErr e p) bs v := by
  intro rest
  simp [Parser.orErr, h]

theorem Reads.renameErr {ε' : Type} {f : ε → ε'} {p : Parser ε α} {bs : Bytes} {v : α}
    (h : Reads p bs v) : Reads (p.renameErr f) bs v := by
  intro rest
  simp [Parser.renameErr, h rest]

/-- A parser that undoes `enc` on each element undoes the concatenation of a list. -/
theorem Reads.times {p : Parser ε α} {enc : α → Bytes} {xs : List α}
    (h : ∀ x ∈ xs, Reads p (enc x) x) :
    Reads (p.times xs.length) (xs.flatMap enc) xs := by
  induction xs with
  | nil => exact Reads.pure []
  | cons x xs ih =>
    rw [List.flatMap_cons, List.length_cons]
    exact (h x (by simp)).bind ((ih fun y hy => h y (by simp [hy])).bind_last (Reads.pure _))

end Parser

end HideProtocol.Lib
