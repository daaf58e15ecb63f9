import HideProtocol.Desktop.FilesTheorems
import HideProtocol.Object.SignatureBinding

/-!
# Opening with an epoch store

`open` with an epoch store tries every held epoch, newest first, over the same input and the same
temporary file, and publishes the temporary file when an epoch opens the container. Only the epoch
that ends the search can write, because a secret that is turned away stages nothing.

The name of the temporary file is drawn at random and is an argument, as is how each step fails.
-/

namespace HideProtocol.Cli.OpenStore

open Lib Crypto Format Keyring Object

/-- `Box<dyn Error>`, for commands that open. -/
inductive OpenError where
  | message (text : String)
  | io (error : IoError)
  | object (error : ObjectError)
  /-- `could not publish output without overwriting`, of this kind. -/
  | publish (kind : IoError)
deriving DecidableEq

abbrev Files := Cells Path Bytes

/-- What a command that opens does to the files. -/
abbrev OpenCommand (α : Type) := Disk Path Bytes OpenError α

/-- How the steps of a run fail: one field for each step, and for each epoch that is tried one
fault of `seek` and one of the reads that follow it. -/
structure OpenFaults where
  input : Option IoError := none
  tryExists : Option IoError := none
  tempfile : Option IoError := none
  seek : ℕ → Option IoError := fun _ => none
  read : ℕ → Option ReadFault := fun _ => none
  write : Option WriteFault := none
  publish : Option IoError := none
  remove : Option IoError := none

/-- `File::open`: the content of the file, which each attempt then reads in its own way. -/
def openSource (input : Path) (fault : Option IoError) : OpenCommand Bytes :=
  ⟨fun files =>
    (match fault, files input with
      | some error, _ => .error (.io error)
      | none, none => .error (.io .notFound)
      | none, some content => .ok content, files)⟩

def tryExists (path : Path) (fault : Option IoError) : OpenCommand Bool :=
  ⟨fun files =>
    (match fault with
      | some error => .error (.io error)
      | none => .ok (files path).isSome, files)⟩

/-- Refuses to overwrite, and creates the temporary file beside the output. -/
def newOutput (output staging : Path) (faults : OpenFaults) : OpenCommand Unit := do
  let taken ← tryExists output faults.tryExists
  Disk.lift (failIf taken (.message "output already exists; refusing to overwrite"))
  (Disk.createNew staging faults.tempfile).orFail .io

/-- A temporary file is removed when it is dropped. A failed removal goes unnoticed. -/
def dropping {α : Type} (staging : Path) (faults : OpenFaults) (x : OpenCommand α) :
    OpenCommand α := do
  match ← x.caught with
  | .ok a => pure a
  | .error error => do
    let _ ← (Disk.removeFile staging faults.remove).caught
    Disk.lift (.error error)

/-- Flushing and synchronising are part of writing the file. -/
def commitOutput (staging output : Path) (faults : OpenFaults) : OpenCommand Unit :=
  (Disk.persistNoclobber staging output faults.publish).orFail .publish

/-- What follows the search: the temporary file is filled and published, or dropped. -/
def publish {α : Type} (output staging : Path) (faults : OpenFaults) (bytes : Bytes)
    (result : Except OpenError α) : OpenCommand α :=
  dropping staging faults do
    let opened ← Disk.fill staging faults.write (fun error => .object (.io error)) .io bytes result
    commitOutput staging output faults
    pure opened

section
variable (P : Crypto.Primitives) (S : Sign.Primitives)

/-- What the attempts wrote, and how they ended: with the epoch that opened the container. -/
structure Attempts where
  staging : Bytes
  result : Except OpenError (UInt64 × VerifiedObject S)

/-- The loop of `open_with_store`. Each attempt rewinds the input and goes on writing where the
one before it stopped. -/
def tryEpochs (storePath : String) (content : Bytes) (faults : OpenFaults) :
    (attempt : ℕ) → (staged : Bytes) → List (UInt64 × RecipientSecret) → Attempts S
  | _, staged, [] =>
    { staging := staged
      result := .error (.message ("no epoch held in " ++ storePath ++
        " can open this file; it may be addressed to an erased epoch")) }
  | attempt, staged, (number, secret) :: held =>
    match faults.seek attempt with
    | some error => { staging := staged, result := .error (.io error) }
    | none =>
      let read := Desktop.decryptFrom P S (readerOf content (faults.read attempt)) secret
      let staged := staged ++ read.staging
      match read.result with
      | .ok verified => { staging := staged, result := .ok (number, verified) }
      | .error .noMatchingRecipient =>
        tryEpochs storePath content faults (attempt + 1) staged held
      | .error error => { staging := staged, result := .error (.object error) }

/-- Opens `input` with the newest epoch of `store` that is a recipient of it. Returns what is
reported. -/
def openWithStore (input : Path) (store : EpochStore) (storePath : String) (output staging : Path)
    (faults : OpenFaults) : OpenCommand (UInt64 × VerifiedObject S) := do
  let content ← openSource input faults.input
  newOutput output staging faults
  let attempts := tryEpochs P S storePath content faults 0 [] store.entries.reverse
  publish output staging faults attempts.staging attempts.result

end

/-! ## The search -/

section
variable (P : Crypto.Primitives) (S : Sign.Primitives)

/-- The container is not for this secret. -/
def TurnedAway (content : Bytes) (secret : RecipientSecret) : Prop :=
  (decryptToStaging P S content secret).result = .error .noMatchingRecipient

/-- The highest-numbered held secret that is not turned away. -/
structure Newest (content : Bytes) (store : EpochStore) (number : UInt64)
    (secret : RecipientSecret) : Prop where
  held : (number, secret) ∈ store.entries
  «matches» : ¬TurnedAway P S content secret
  newer : ∀ entry ∈ store.entries, number < entry.1 → TurnedAway P S content entry.2

end

section
variable {P : Crypto.Primitives} {S : Sign.Primitives} {content : Bytes} {secret : RecipientSecret}
  {storePath : String} {faults : OpenFaults}

/-- A secret that is turned away by a reader that fails is turned away by the whole content, and
nothing was staged. -/
theorem turnedAway_of_decryptFrom {fault : Option ReadFault}
    (h : (Desktop.decryptFrom P S (readerOf content fault) secret).result =
      .error .noMatchingRecipient) :
    TurnedAway P S content secret ∧
      (Desktop.decryptFrom P S (readerOf content fault) secret).staging = [] := by
  have hstopped : ∀ {error e}, Desktop.stopped error e = .noMatchingRecipient →
      e = .noMatchingRecipient := by
    intro error e h
    cases e <;> first | rfl | cases h
  rcases arrives_readerOf content fault with harrives | ⟨n, error, harrives⟩
  · unfold Desktop.decryptFrom at h ⊢
    rw [harrives] at h ⊢
    exact ⟨h, staging_of_noMatchingRecipient h⟩
  · unfold Desktop.decryptFrom at h ⊢
    rw [harrives] at h ⊢
    dsimp only at h ⊢
    cases hopened : openHeader P (content.take n) secret with
    | error e =>
      rw [hopened] at h
      have he : e = .noMatchingRecipient := hstopped (Except.error.inj h)
      have hprefix : (decryptToStaging P S (content.take n) secret).result =
          .error .noMatchingRecipient := by
        unfold decryptToStaging
        rw [hopened, he]
      refine ⟨?_, rfl⟩
      rw [← List.take_append_drop n content]
      exact noMatchingRecipient_more (content.drop n) hprefix
    | ok opened =>
      rw [hopened] at h
      dsimp only at h
      split at h
      next e hrecords =>
        rw [hstopped (Except.error.inj h)] at hrecords
        exact absurd hrecords (decryptLoop_ne _ _ _ _ _ _)
      next => cases h

/-- A reader that fails never leads to success. -/
theorem decryptToStaging_of_decryptFrom {fault : Option ReadFault} {verified : VerifiedObject S}
    (h : (Desktop.decryptFrom P S (readerOf content fault) secret).result = .ok verified) :
    Desktop.decryptFrom P S (readerOf content fault) secret = decryptToStaging P S content secret := by
  rcases readerOf_cases content fault with hwhole | hbreaks
  · rw [hwhole, Desktop.decryptFrom_ofBytes]
  · exact absurd h (Desktop.decryptFrom_of_breaks hbreaks secret verified)

variable {attempt : ℕ} {staged : Bytes} {held : List (UInt64 × RecipientSecret)} {number : UInt64}
  {verified : VerifiedObject S}

/-- A search that succeeds turned away every epoch before the one that opened the container, and
that one alone wrote. -/
theorem tryEpochs_eq_ok
    (h : (tryEpochs P S storePath content faults attempt staged held).result =
      .ok (number, verified)) :
    ∃ before secret after, held = before ++ (number, secret) :: after ∧
      (∀ entry ∈ before, TurnedAway P S content entry.2) ∧
      (decryptToStaging P S content secret).result = .ok verified ∧
      (tryEpochs P S storePath content faults attempt staged held).staging =
        staged ++ (decryptToStaging P S content secret).staging := by
  induction held generalizing attempt staged with
  | nil => cases h
  | cons entry held ih =>
    obtain ⟨first, secret⟩ := entry
    unfold tryEpochs at h ⊢
    cases hseek : faults.seek attempt with
    | some error =>
      rw [hseek] at h
      cases h
    | none =>
      rw [hseek] at h
      dsimp only at h ⊢
      cases hresult : (Desktop.decryptFrom P S (readerOf content (faults.read attempt))
          secret).result with
      | ok found =>
        rw [hresult] at h
        obtain ⟨rfl, rfl⟩ := Prod.mk.inj (Except.ok.inj h)
        have hwhole := decryptToStaging_of_decryptFrom hresult
        rw [hwhole] at hresult ⊢
        refine ⟨[], secret, held, rfl, ?_, hresult, rfl⟩
        intro entry hentry
        cases hentry
      | error error =>
        rw [hresult] at h
        by_cases hturned : error = .noMatchingRecipient
        · subst hturned
          dsimp only at h ⊢
          obtain ⟨haway, hnothing⟩ := turnedAway_of_decryptFrom hresult
          rw [hnothing, List.append_nil] at h ⊢
          obtain ⟨before, opener, after, hheld, hbefore, hopens, hstaging⟩ := ih h
          refine ⟨(first, secret) :: before, opener, after, by rw [hheld]; rfl, ?_, hopens, hstaging⟩
          intro entry hentry
          rcases List.mem_cons.mp hentry with heq | hentry
          · rw [heq]
            exact haway
          · exact hbefore entry hentry
        · cases error <;> first | exact absurd rfl hturned | cases h

/-- Without faults, an epoch that is turned away is as if it were not held. -/
theorem tryEpochs_turnedAway {before : List (UInt64 × RecipientSecret)}
    (h : ∀ entry ∈ before, TurnedAway P S content entry.2) :
    tryEpochs P S storePath content {} attempt staged (before ++ held) =
      tryEpochs P S storePath content {} (attempt + before.length) staged held := by
  induction before generalizing attempt with
  | nil => rfl
  | cons entry before ih =>
    have haway : (Desktop.decryptFrom P S (readerOf content none) entry.2).result =
        .error .noMatchingRecipient := by
      show (Desktop.decryptFrom P S (Reader.ofBytes content) entry.2).result = _
      rw [Desktop.decryptFrom_ofBytes]
      exact h entry List.mem_cons_self
    rw [List.cons_append, tryEpochs]
    dsimp only
    rw [haway, (turnedAway_of_decryptFrom haway).2, List.append_nil,
      ih fun entry hentry => h entry (List.mem_cons_of_mem _ hentry), List.length_cons]
    dsimp only
    rw [Nat.add_right_comm, Nat.add_assoc]

theorem tryEpochs_opens (hopens : (decryptToStaging P S content secret).result = .ok verified) :
    tryEpochs P S storePath content {} attempt staged ((number, secret) :: held) =
      { staging := staged ++ (decryptToStaging P S content secret).staging
        result := .ok (number, verified) } := by
  have hread : Desktop.decryptFrom P S (readerOf content none) secret =
      decryptToStaging P S content secret := Desktop.decryptFrom_ofBytes content secret
  rw [tryEpochs]
  dsimp only
  rw [hread, hopens]

end

/-! ## The newest epoch -/

/-- In an ordered list, what stands before an element is what is related to it. -/
theorem exists_split_iff {α : Type} {r : α → α → Prop} {l : List α} (hl : l.Pairwise r)
    (hasymm : ∀ a b, r a b → ¬r b a) (x : α) (Q : α → Prop) :
    (∃ before after, l = before ++ x :: after ∧ ∀ y ∈ before, Q y) ↔
      x ∈ l ∧ ∀ y ∈ l, r y x → Q y := by
  constructor
  · intro h
    obtain ⟨before, after, rfl, hbefore⟩ := h
    refine ⟨List.mem_append_right _ List.mem_cons_self, ?_⟩
    intro y hy hyx
    rcases List.mem_append.mp hy with hy | hy
    · exact hbefore y hy
    · rcases List.mem_cons.mp hy with rfl | hy
      · exact absurd hyx (hasymm y y hyx)
      · have hxy : r x y := List.rel_of_pairwise_cons (List.pairwise_append.mp hl).2.1 hy
        exact absurd hyx (hasymm x y hxy)
  · intro h
    obtain ⟨hx, hQ⟩ := h
    obtain ⟨before, after, rfl⟩ := List.append_of_mem hx
    refine ⟨before, after, rfl, ?_⟩
    intro y hy
    apply hQ y (List.mem_append_left _ hy)
    exact (List.pairwise_append.mp hl).2.2 y hy x List.mem_cons_self

section
variable {P : Crypto.Primitives} {S : Sign.Primitives} {content : Bytes} {store : EpochStore}
  {number : UInt64} {secret : RecipientSecret}

/-- Tried from the end, the entries before an epoch are the newer ones. -/
theorem newest_iff :
    Newest P S content store number secret ↔ ¬TurnedAway P S content secret ∧
      ∃ before after, store.entries.reverse = before ++ (number, secret) :: after ∧
        ∀ entry ∈ before, TurnedAway P S content entry.2 := by
  have hdescending : store.entries.reverse.Pairwise fun a b => b.1 < a.1 :=
    List.pairwise_reverse.mpr store.ascending
  rw [exists_split_iff hdescending (fun _ _ => UInt64.lt_asymm)]
  simp only [List.mem_reverse]
  constructor
  · intro h
    exact ⟨h.matches, h.held, h.newer⟩
  · intro h
    obtain ⟨hmatches, hheld, hnewer⟩ := h
    exact ⟨hheld, hmatches, hnewer⟩

end

/-! ## The temporary file -/

section
variable {α : Type} {files : Files} {output staging : Path} {faults : OpenFaults} {bytes : Bytes}
  {result : Except OpenError α}

/-- A computation that failed leaves at most the temporary file behind. -/
structure NothingBut (staging : Path) (faults : OpenFaults) (files after : Files) : Prop where
  elsewhere : ∀ path, path ≠ staging → after path = files path
  removed : faults.remove = none → after = files

theorem nothingBut_refl : NothingBut staging faults files files := ⟨fun _ _ => rfl, fun _ => rfl⟩

theorem dropping_of_ok {x : OpenCommand α} {before after : Files} {a : α}
    (h : x.run before = (.ok a, after)) : (dropping staging faults x).run before = (.ok a, after) := by
  unfold dropping
  rw [Disk.caught_bind, h]
  rfl

/-- What failed after it filled the temporary file is as if it had not created it. -/
theorem dropping_of_error {x : OpenCommand α} {before : Files} {error : OpenError}
    (hnone : files staging = none)
    (h : x.run before = (.error error, Function.update files staging (some bytes))) :
    ((dropping staging faults x).run before).1 = .error error ∧
      NothingBut staging faults files ((dropping staging faults x).run before).2 := by
  unfold dropping
  rw [Disk.caught_bind, h]
  refine ⟨rfl, ?_, ?_⟩
  · intro path hne
    show ((Disk.removeFile staging faults.remove).run _).2 path = files path
    cases faults.remove with
    | some error => exact Function.update_of_ne hne _ _
    | none =>
      rw [Disk.removeFile_new hnone]
  · intro hremove
    show ((Disk.removeFile staging faults.remove).run _).2 = files
    rw [hremove, Disk.removeFile_new hnone]

theorem publish_cases (hnone : files staging = none) :
    (∃ a, result = .ok a ∧ files output = none ∧
      (publish output staging faults bytes result).run (Function.update files staging (some [])) =
        (.ok a, Function.update files output (some bytes))) ∨
    ∃ error after, (publish output staging faults bytes result).run
        (Function.update files staging (some [])) = (.error error, after) ∧
      NothingBut staging faults files after := by
  -- a file that is not filled or not committed ends in an error with the temporary file there
  have hfails : ∀ {x : OpenCommand α} {error : OpenError} {content : Bytes},
      x.run (Function.update files staging (some [])) =
        (.error error, Function.update files staging (some content)) →
      ∃ error after, (dropping staging faults x).run (Function.update files staging (some [])) =
        (.error error, after) ∧ NothingBut staging faults files after := by
    intro x error content hx
    obtain ⟨herror, hnothing⟩ := dropping_of_error hnone hx
    exact ⟨error, _, Prod.ext herror rfl, hnothing⟩
  unfold publish
  by_cases hfits : Fits bytes faults.write
  · have hfill := @Disk.fill_of_fits Path _ _ _ files staging bytes faults.write
      (fun error => OpenError.object (.io error)) .io result hfits
    cases result with
    | error error => exact Or.inr (hfails (Disk.bind_of_error hfill _))
    | ok a =>
      rcases @Disk.persistNoclobber_cases Path _ files staging faults.publish output hnone bytes with
        ⟨hfree, hpersist⟩ | ⟨error, hpersist⟩
      · left
        refine ⟨a, rfl, hfree, dropping_of_ok ?_⟩
        rw [Disk.bind_of_ok hfill]
        unfold commitOutput
        rw [Disk.bind_of_ok (Disk.orFail_of_ok hpersist _)]
        rfl
      · right
        apply hfails
        rw [Disk.bind_of_ok hfill]
        unfold commitOutput
        rw [Disk.bind_of_error (Disk.orFail_of_error hpersist _)]
  · obtain ⟨error, hfill⟩ := @Disk.fill_of_not_fits Path _ _ _ files staging bytes faults.write
      (fun error => OpenError.object (.io error)) .io result hfits
    exact Or.inr (hfails (Disk.bind_of_error hfill _))

/-- Without faults, a new temporary file becomes a new output. -/
theorem publish_of_ok {a : α} (hnone : files staging = none) (hfree : files output = none)
    (hne : staging ≠ output) :
    (publish output staging {} bytes (.ok a)).run (Function.update files staging (some [])) =
      (.ok a, Function.update files output (some bytes)) := by
  have hfill := @Disk.fill_of_fits Path _ _ _ files staging bytes none
    (fun error => OpenError.object (.io error)) .io (Except.ok a) trivial
  unfold publish
  apply dropping_of_ok
  rw [Disk.bind_of_ok hfill]
  unfold commitOutput
  rw [Disk.bind_of_ok (Disk.orFail_of_ok (Disk.persistNoclobber_new hnone hfree hne bytes) _)]
  rfl

theorem tryExists_of_eq {content : Option Bytes} (h : files output = content) :
    (tryExists output none).run files = (.ok content.isSome, files) := by
  rw [← h]
  rfl

theorem newOutput_cases (output staging : Path) (faults : OpenFaults) (files : Files) :
    (files output = none ∧ files staging = none ∧ (newOutput output staging faults).run files =
      (.ok (), Function.update files staging (some []))) ∨
    ∃ error, (newOutput output staging faults).run files = (.error error, files) := by
  unfold newOutput
  cases htry : faults.tryExists with
  | some error => exact Or.inr ⟨.io error, rfl⟩
  | none =>
    cases houtput : files output with
    | some content =>
      right
      refine ⟨.message "output already exists; refusing to overwrite", ?_⟩
      rw [Disk.bind_of_ok (tryExists_of_eq houtput)]
      rfl
    | none =>
      rw [Disk.bind_of_ok (tryExists_of_eq houtput)]
      by_cases hcreate : faults.tempfile = none ∧ files staging = none
      · obtain ⟨htempfile, hstaging⟩ := hcreate
        left
        refine ⟨rfl, hstaging, ?_⟩
        rw [htempfile]
        exact Disk.orFail_of_ok (Disk.createNew_of_none hstaging) _
      · obtain ⟨error, hrefused⟩ := Disk.createNew_of_refused hcreate
        exact Or.inr ⟨.io error, Disk.orFail_of_error hrefused _⟩

theorem newOutput_of_free (hfree : files output = none) (hnone : files staging = none) :
    (newOutput output staging {}).run files =
      (.ok (), Function.update files staging (some [])) := by
  unfold newOutput
  rw [Disk.bind_of_ok (tryExists_of_eq hfree)]
  exact Disk.orFail_of_ok (Disk.createNew_of_none hnone) _

end

/-! ## The command -/

section
variable {P : Crypto.Primitives} {S : Sign.Primitives} {input output staging : Path}
  {store : EpochStore} {storePath : String} {faults : OpenFaults} {files : Files}

/-- Whatever fails, a run opens the container with the newest epoch that is a recipient and
publishes its plaintext, or it creates no output. -/
theorem openWithStore_cases :
    (∃ content number secret verified, files input = some content ∧ files output = none ∧
      Newest P S content store number secret ∧
      (decryptToStaging P S content secret).result = .ok verified ∧
      (openWithStore P S input store storePath output staging faults).run files =
        (.ok (number, verified),
          Function.update files output (some (decryptToStaging P S content secret).staging))) ∨
    ∃ error after, (openWithStore P S input store storePath output staging faults).run files =
        (.error error, after) ∧ NothingBut staging faults files after := by
  have hstops : ∀ {error}, (openWithStore P S input store storePath output staging faults).run files =
        (.error error, files) →
      ∃ error after, (openWithStore P S input store storePath output staging faults).run files =
        (.error error, after) ∧ NothingBut staging faults files after :=
    fun h => ⟨_, files, h, nothingBut_refl⟩
  rcases hopen : (openSource input faults.input).run files with ⟨opened, after⟩
  have hafter : after = files := (congrArg Prod.snd hopen).symm
  subst hafter
  cases opened with
  | error error => exact Or.inr (hstops (Disk.bind_of_error hopen _))
  | ok content =>
    have hinput : after input = some content := by
      have hcontent := congrArg Prod.fst hopen
      dsimp only [openSource] at hcontent
      split at hcontent
      · cases hcontent
      · cases hcontent
      · next hfile => rw [hfile, Except.ok.inj hcontent]
    rcases newOutput_cases output staging faults after with ⟨hfree, hnone, hnew⟩ | ⟨error, hnew⟩
    · have hrun : (openWithStore P S input store storePath output staging faults).run after =
          (publish output staging faults
            (tryEpochs P S storePath content faults 0 [] store.entries.reverse).staging
            (tryEpochs P S storePath content faults 0 [] store.entries.reverse).result).run
            (Function.update after staging (some [])) := by
        unfold openWithStore
        rw [Disk.bind_of_ok hopen, Disk.bind_of_ok hnew]
      rw [hrun]
      rcases @publish_cases _ after output staging faults
          (tryEpochs P S storePath content faults 0 [] store.entries.reverse).staging
          (tryEpochs P S storePath content faults 0 [] store.entries.reverse).result hnone with
        ⟨⟨number, verified⟩, hresult, -, hpublish⟩ | herror
      · left
        obtain ⟨before, secret, older, hheld, hbefore, hopens, hstaging⟩ := tryEpochs_eq_ok hresult
        refine ⟨content, number, secret, verified, hinput, hfree, ?_, hopens, ?_⟩
        · apply newest_iff.mpr
          refine ⟨?_, before, older, hheld, hbefore⟩
          unfold TurnedAway
          rw [hopens]
          simp
        · rw [hpublish, hstaging, List.nil_append]
      · exact Or.inr herror
    · right
      apply hstops
      · unfold openWithStore
        rw [Disk.bind_of_ok hopen, Disk.bind_of_error hnew]

/-- Without faults, the newest epoch that is a recipient decides. -/
theorem openWithStore_opens {content : Bytes} {number : UInt64} {secret : RecipientSecret}
    {verified : VerifiedObject S} (hinput : files input = some content)
    (hfree : files output = none) (hnone : files staging = none) (hne : staging ≠ output)
    (hnewest : Newest P S content store number secret)
    (hopens : (decryptToStaging P S content secret).result = .ok verified) :
    (openWithStore P S input store storePath output staging {}).run files =
      (.ok (number, verified),
        Function.update files output (some (decryptToStaging P S content secret).staging)) := by
  obtain ⟨-, before, older, hheld, hbefore⟩ := newest_iff.mp hnewest
  have hopen : (openSource input none).run files = (.ok content, files) := by
    unfold openSource
    dsimp only
    rw [hinput]
  unfold openWithStore
  rw [Disk.bind_of_ok hopen, Disk.bind_of_ok (newOutput_of_free hfree hnone), hheld,
    tryEpochs_turnedAway hbefore, tryEpochs_opens hopens]
  exact publish_of_ok hnone hfree hne

/-- Without faults, a run succeeds exactly when the newest epoch that is a recipient opens the
container, and fails having done nothing otherwise. -/
theorem openWithStore_iff {content : Bytes} (hinput : files input = some content)
    (hfree : files output = none) (hnone : files staging = none) (hne : staging ≠ output) :
    let run := (openWithStore P S input store storePath output staging {}).run files
    (∀ number verified, run.1 = .ok (number, verified) ↔
      ∃ secret, Newest P S content store number secret ∧
        (decryptToStaging P S content secret).result = .ok verified) ∧
    (∀ number secret verified, Newest P S content store number secret →
      (decryptToStaging P S content secret).result = .ok verified →
        run.2 = Function.update files output (some (decryptToStaging P S content secret).staging)) ∧
    ((∀ opened, run.1 ≠ .ok opened) → run.2 = files) := by
  intro run
  refine ⟨?_, ?_, ?_⟩
  · intro number verified
    constructor
    · intro h
      rcases @openWithStore_cases P S input output staging store storePath {} files with
        ⟨found, first, secret, opened, hfound, -, hnewest, hopens, hrun⟩ | ⟨error, after, hrun, -⟩
      · have hcontent : content = found := Option.some.inj (hinput.symm.trans hfound)
        obtain ⟨rfl, rfl⟩ := Prod.mk.inj (Except.ok.inj (h.symm.trans (congrArg Prod.fst hrun)))
        rw [hcontent]
        exact ⟨secret, hnewest, hopens⟩
      · cases h.symm.trans (congrArg Prod.fst hrun)
    · intro h
      obtain ⟨secret, hnewest, hopens⟩ := h
      exact congrArg Prod.fst (openWithStore_opens hinput hfree hnone hne hnewest hopens)
  · intro number secret verified hnewest hopens
    exact congrArg Prod.snd (openWithStore_opens hinput hfree hnone hne hnewest hopens)
  · intro hfails
    rcases @openWithStore_cases P S input output staging store storePath {} files with
      ⟨found, first, secret, opened, -, -, -, -, hrun⟩ | ⟨error, after, hrun, hnothing⟩
    · exact absurd (congrArg Prod.fst hrun) (hfails _)
    · exact (congrArg Prod.snd hrun).trans (hnothing.removed rfl)

end

/-- **The newest matching epoch, and no residue.** Without faults a run succeeds exactly when the
newest held secret that is not turned away opens the container, and the new output is that
plaintext; otherwise nothing is created. With any faults, what is published is still the plaintext
of that secret, and a run that fails leaves at most its temporary file. A secret that is turned
away has staged nothing, and errors differ between secrets only by what a recipient finds inside. -/
theorem newest_epoch_opens (P : Crypto.Primitives) (S : Sign.Primitives) :
    (∀ (store : EpochStore) (storePath : String) (input output staging : Path) (files : Files)
        (content : Bytes), files input = some content → files output = none →
        files staging = none → staging ≠ output →
      let run := (openWithStore P S input store storePath output staging {}).run files
      (∀ number verified, run.1 = .ok (number, verified) ↔
        ∃ secret, Newest P S content store number secret ∧
          (decryptToStaging P S content secret).result = .ok verified) ∧
      (∀ number secret verified, Newest P S content store number secret →
        (decryptToStaging P S content secret).result = .ok verified →
          run.2 = Function.update files output
            (some (decryptToStaging P S content secret).staging)) ∧
      ((∀ opened, run.1 ≠ .ok opened) → run.2 = files)) ∧
    (∀ (store : EpochStore) (storePath : String) (input output staging : Path)
        (faults : OpenFaults) (files : Files),
      let run := (openWithStore P S input store storePath output staging faults).run files
      (∃ content number secret verified, files input = some content ∧ files output = none ∧
        Newest P S content store number secret ∧
        (decryptToStaging P S content secret).result = .ok verified ∧
        run = (.ok (number, verified),
          Function.update files output (some (decryptToStaging P S content secret).staging))) ∨
      ∃ error after, run = (.error error, after) ∧
        (∀ path, path ≠ staging → after path = files path) ∧
        (faults.remove = none → after = files)) ∧
    (∀ content secret, TurnedAway P S content secret →
      (decryptToStaging P S content secret).staging = []) ∧
    (∀ content secret, TurnedAway P S content secret ↔
      (∃ head, readHead content = .ok head) ∧ ¬Recovers P content secret) ∧
    ∀ content secret error, (decryptToStaging P S content secret).result = .error (.format error) →
      Recovers P content secret ∨
        ∀ other, (decryptToStaging P S content other).result = .error (.format error) := by
  refine ⟨?_, ?_, ?_, ?_, ?_⟩
  · intro store storePath input output staging files content hinput hfree hnone hne
    exact openWithStore_iff hinput hfree hnone hne
  · intro store storePath input output staging faults files
    rcases @openWithStore_cases P S input output staging store storePath faults files with
      hopened | ⟨error, after, hrun, hnothing⟩
    · exact Or.inl hopened
    · exact Or.inr ⟨error, after, hrun, hnothing.elsewhere, hnothing.removed⟩
  · intro content secret hturned
    exact staging_of_noMatchingRecipient hturned
  · intro content secret
    constructor
    · intro hturned
      obtain ⟨head, hhead, -⟩ := noMatchingRecipient_iff.mp hturned
      exact ⟨⟨head, hhead⟩, fun hrecovers => decryptToStaging_of_recovers hrecovers hturned⟩
    · intro h
      obtain ⟨⟨head, hhead⟩, hnot⟩ := h
      -- the head was read, and no recipient in it is this one
      rcases matching_cases P content secret with ⟨error, herror, -⟩ | hturned | hrecovers
      · cases hhead.symm.trans herror
      · exact noMatchingRecipient_iff.mpr hturned
      · exact absurd hrecovers hnot
  · intro content secret error herror
    by_cases hrecovers : Recovers P content secret
    · exact Or.inl hrecovers
    · rcases error_of_not_recovers hrecovers herror with heq | hsame
      · cases heq
      · exact Or.inr hsame

/-! ## Errors of one secret only -/

section
variable {S : Sign.Primitives} {secret other : RecipientSecret} {material : ObjectMaterial}
  {prepared : Prepared}

/-- The only recipient is someone else. -/
theorem recoverCek_one {P : Crypto.Primitives} {objectId mac : Key}
    {preamble protectedBytes encapsulation wrappedCek : Bytes} {error : CryptoError}
    (h : unwrapCek P other objectId encapsulation wrappedCek = .error error) :
    recoverCek P other objectId preamble protectedBytes mac
      [Stanza.xWing { encapsulation, wrappedCek }] = .error .noMatchingRecipient := by
  simp only [recoverCek, Stanza.asXwing, h]

/-- A toy container for one recipient turns every other secret away. -/
theorem toy_recover_other (hne : secret ≠ other)
    (hrecipients : prepared.header.recipients = [Stanza.xWing (toyStanza secret material)])
    (rest : Bytes) :
    Head.recover Crypto.Primitives.toy
      { preambleBytes := prepared.preamble.encode, preamble := prepared.preamble
        protectedBytes := prepared.protectedBytes, mac := prepared.mac
        header := prepared.header, rest } other = .error .noMatchingRecipient := by
  unfold Head.recover
  rw [hrecipients]
  unfold toyStanza
  exact recoverCek_one (toy_unwrapCek_other hne material.cek prepared.header.objectId)

end

/-- Metadata that minor 2 may not carry. -/
def strayMetadata : Metadata := { extensions := [{ key := 64, value := [1] }] }

theorem strayMetadata_valid : strayMetadata.Valid true where
  extensions := by
    refine ⟨by decide, ⟨by decide, by decide, ?_⟩, trivial⟩
    show 1 ≤ maxExtensionLen
    decide
  filename := by simp [strayMetadata]
  mediaType := by simp [strayMetadata]
  signature := by simp [Metadata.slot, strayMetadata]

theorem strayMetadata_room : strayMetadata.encodedLen + 6000 ≤ maxMetadataLen := by
  have hlen : strayMetadata.encodedLen = 5 := rfl
  rw [hlen]
  decide

section
variable (secret : RecipientSecret) (material : ObjectMaterial) {metadata : Metadata}
  {signer : Option Signer} {other : RecipientSecret}

/-- Three bytes for one recipient. -/
def sealedRun (metadata : Metadata) (signer : Option Signer) : ObjectEncryption :=
  encryptInner Crypto.Primitives.toy Sign.Primitives.toy (Reader.ofBytes [1, 2, 3]) metadata material
    [toyStanza secret material] signer {}

theorem sealedRun_result (hvalid : metadata.Valid true)
    (hroom : metadata.encodedLen + 6000 ≤ maxMetadataLen) :
    (sealedRun secret material metadata signer).result = .ok 3 := by
  have hfits : 3 ≤ maxSignedInput := by decide
  exact toy_encryptInner secret material signer [1, 2, 3] hvalid hroom rfl (by decide)
    ⟨Nat.zero_le _, trivial⟩ (by decide) hfits

/-- The header that was prepared is read back. -/
theorem sealedRun_head (hvalid : metadata.Valid true)
    (hroom : metadata.encodedLen + 6000 ≤ maxMetadataLen) :
    ∃ prepared rest, prepare Crypto.Primitives.toy Sign.Primitives.toy metadata material
        [toyStanza secret material] signer {} (signedPlaintext signer [1, 2, 3]) = .ok prepared ∧
      prepared.header.recipients = [Stanza.xWing (toyStanza secret material)] ∧
      readHead (sealedRun secret material metadata signer).output =
        .ok { preambleBytes := prepared.preamble.encode, preamble := prepared.preamble
              protectedBytes := prepared.protectedBytes, mac := prepared.mac
              header := prepared.header, rest } := by
  obtain ⟨prepared, payload, hprepare, -, hrun⟩ := encryptInner_eq_ok
    (Reader.delivers_ofBytes [1, 2, 3]) (sealedRun_result secret material hvalid hroom)
  have hrun : sealedRun secret material metadata signer =
      writeContainer Crypto.Primitives.toy material prepared payload := hrun
  have hprepares := prepare_eq_ok hprepare
  have hrecipients : prepared.header.recipients = [Stanza.xWing (toyStanza secret material)] :=
    hprepares.recipients
  have hadmitted : prepared.preamble.isLegacy = true →
      prepared.header.extensions = [] ∧ ∀ s ∈ prepared.header.recipients, s.asXwing.isSome := by
    intro _
    refine ⟨hprepares.extensions, ?_⟩
    rw [hrecipients]
    simp [Stanza.asXwing]
  obtain ⟨rest, hhead⟩ := readHead_written hprepares.wellFormed hadmitted payload
  rw [hrun]
  exact ⟨prepared, rest, hprepare, hrecipients, hhead⟩

theorem sealedRun_turnedAway (hvalid : metadata.Valid true)
    (hroom : metadata.encodedLen + 6000 ≤ maxMetadataLen) (hne : secret ≠ other) :
    TurnedAway Crypto.Primitives.toy Sign.Primitives.toy
      (sealedRun secret material metadata signer).output other := by
  obtain ⟨prepared, rest, -, hrecipients, hhead⟩ :=
    @sealedRun_head secret material metadata signer hvalid hroom
  exact noMatchingRecipient_iff.mpr ⟨_, hhead, toy_recover_other hne hrecipients rest⟩

/-- What is wrong inside is reported to the recipient. -/
theorem strayMetadata_refused :
    (decryptToStaging Crypto.Primitives.toy Sign.Primitives.toy
      (sealedRun secret material strayMetadata (some (sampleIdentity, .legacyPublic))).output
      secret).result = .error (.format .invalidMetadata) := by
  obtain ⟨prepared, rest, hprepare, hrecipients, hhead⟩ := @sealedRun_head secret material _
    (some (sampleIdentity, .legacyPublic)) strayMetadata_valid strayMetadata_room
  have hprepares := prepare_eq_ok hprepare
  obtain ⟨n, hpreamble⟩ := hprepares.preamble
  have hlegacy := (preambleFor_isLegacy hpreamble).mpr rfl
  have hstray : prepared.metadata.extensions ≠ [] := by
    rw [hprepares.metadataExtensions]
    decide
  have hwrap := toy_wrapRecipients secret material sampleSeed
  have hcek := recoverCek_of_listed hwrap (toy_listed secret sampleSeed) (by simp)
    (toy_separates secret material sampleSeed strayMetadata _ {} _ _ _ hwrap hprepare)
    hprepares.wellFormed.mac hprepares.recipients
  have hopen := openWith_of_legacy toy_aeadCorrect hprepares.wellFormed hlegacy hstray rest
  rw [← hprepares.wellFormed.objectId] at hcek
  rw [decryptToStaging_of_openWith_error _ _ hhead hcek hopen]

/-- The recipient reads the three bytes. -/
theorem sealedRun_opens :
    ∃ verified, (decryptToStaging Crypto.Primitives.toy Sign.Primitives.toy
        (sealedRun secret material {} none).output secret).result = .ok verified ∧
      (decryptToStaging Crypto.Primitives.toy Sign.Primitives.toy
        (sealedRun secret material {} none).output secret).staging = [1, 2, 3] := by
  obtain ⟨hstaging, haccepted, -⟩ := decryptToStaging_encryptInner toy_aeadCorrect
    Sign.Primitives.toy_correct (Reader.delivers_ofBytes _)
    (toy_wrapRecipients secret material sampleSeed) production_none (by decide) (by simp)
    (@sealedRun_result secret material _ none empty_valid empty_room) (toy_listed secret sampleSeed)
    fun prepared => toy_separates secret material sampleSeed _ _ _ _ _ prepared
      (toy_wrapRecipients secret material sampleSeed)
  obtain ⟨verified, hresult, -⟩ := haccepted (Or.inl rfl)
  exact ⟨verified, hresult, hstaging⟩

end

def otherSecret : RecipientSecret := ⟨Vector.replicate 32 8⟩

theorem sampleSecret_ne_otherSecret : sampleSecret ≠ otherSecret := by decide

theorem format_errors_differ :
    (decryptToStaging Crypto.Primitives.toy Sign.Primitives.toy
      (sealedRun sampleSecret sampleMaterial strayMetadata
        (some (sampleIdentity, .legacyPublic))).output sampleSecret).result =
        .error (.format .invalidMetadata) ∧
    (decryptToStaging Crypto.Primitives.toy Sign.Primitives.toy
      (sealedRun sampleSecret sampleMaterial strayMetadata
        (some (sampleIdentity, .legacyPublic))).output otherSecret).result =
        .error .noMatchingRecipient ∧
    ¬∀ (P : Crypto.Primitives) (S : Sign.Primitives) (container : Bytes)
      (secret other : RecipientSecret) (error : FormatError),
      (decryptToStaging P S container secret).result = .error (.format error) →
        (decryptToStaging P S container other).result = .error (.format error) := by
  have hown := strayMetadata_refused sampleSecret sampleMaterial
  have hother := @sealedRun_turnedAway sampleSecret sampleMaterial strayMetadata
    (some (sampleIdentity, .legacyPublic)) otherSecret strayMetadata_valid strayMetadata_room
    sampleSecret_ne_otherSecret
  unfold TurnedAway at hother
  refine ⟨hown, hother, ?_⟩
  intro h
  have hsame := h _ _ _ _ otherSecret _ hown
  rw [hother] at hsame
  cases hsame

/-- The sample secret as epoch 0, and one that is no recipient as epoch 3. -/
def sampleStore : EpochStore where
  chainHead := Vector.replicate 32 0
  entries := [(0, sampleSecret), (3, otherSecret)]
  ascending := by
    refine List.pairwise_pair.mpr ?_
    decide

/-- One file, `in`. -/
def sampleFiles (content : Bytes) : Files := fun path =>
  if path = "in".toList then some content else none

/-- Epoch 3 is turned away, and epoch 0 opens the container. -/
theorem newest_epoch_opens_sample :
    ∃ verified, (openWithStore Crypto.Primitives.toy Sign.Primitives.toy "in".toList sampleStore
        "epochs" "out".toList "tmp".toList {}).run
        (sampleFiles (sealedRun sampleSecret sampleMaterial {} none).output) =
      (.ok (0, verified), Function.update
        (sampleFiles (sealedRun sampleSecret sampleMaterial {} none).output) "out".toList
        (some [1, 2, 3])) := by
  obtain ⟨verified, hopens, hstaging⟩ := sealedRun_opens sampleSecret sampleMaterial
  have haway := @sealedRun_turnedAway sampleSecret sampleMaterial {} none otherSecret empty_valid
    empty_room sampleSecret_ne_otherSecret
  have hnewest : Newest Crypto.Primitives.toy Sign.Primitives.toy
      (sealedRun sampleSecret sampleMaterial {} none).output sampleStore 0 sampleSecret :=
    { held := List.mem_cons_self
      «matches» := by
        unfold TurnedAway
        rw [hopens]
        simp
      newer := by
        intro entry hentry hlt
        rcases List.mem_cons.mp hentry with rfl | hentry
        · exact absurd hlt (by decide)
        · rw [List.mem_singleton.mp hentry]
          exact haway }
  have hexact := (newest_epoch_opens Crypto.Primitives.toy Sign.Primitives.toy).1 sampleStore
    "epochs" "in".toList "out".toList "tmp".toList
    (sampleFiles (sealedRun sampleSecret sampleMaterial {} none).output)
    (sealedRun sampleSecret sampleMaterial {} none).output (if_pos rfl) (if_neg (by decide))
    (if_neg (by decide)) (by decide)
  refine ⟨verified, Prod.ext ?_ ?_⟩
  · exact (hexact.1 0 verified).mpr ⟨sampleSecret, hnewest, hopens⟩
  · exact (hexact.2.1 0 sampleSecret verified hnewest hopens).trans (by rw [hstaging])

end HideProtocol.Cli.OpenStore
