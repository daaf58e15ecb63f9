import HideProtocol.Cli.Histories
import HideProtocol.Lib.Race

/-!
# Identity commands side by side

`identity-create`, `identity-enrol` and `identity-revoke` replace the log file as a whole. Whatever
commands run on one file at once, and wherever they crash, the file is a log that is accepted. But
nothing keeps a command from replacing a log that another one has extended since it was read, and
then the entry of the other one is gone, though its run has reported it.
`identity_log_loses_nothing_iff` says which replacements these are.
-/

namespace HideProtocol.Cli

open Lib Sign
open Identity (Entry IdentityLog)

/-- A command that replaces the log, with the files and the answers it is given. -/
inductive IdentityEdit where
  | create (secret recovery : GivenFile) (label passphrase : String)
  | enrol (secret device : GivenFile) (label : String) (recovery : GivenFile) (passphrase : String)
  | revoke (secret device recovery : GivenFile) (passphrase : String)

/-- A program over the log file. -/
abbrev IdentityProgram := Program Unit Bytes CliError

section
variable (K : Keyring.Primitives) (P : Sign.Primitives)

/-- Starts a log. Returns what replaces the file. -/
def identityCreate (secret recovery : GivenFile) (label passphrase : String) :
    Except CliError Bytes := do
  let founder ← loadSigningIdentity K secret.path secret.content passphrase
  let recoveryKey ← loadVerifyingIdentity P recovery
  let log ← mapErr .identity (IdentityLog.create K.crypto.sha256 founder label recoveryKey)
  pure (Identity.encode log.entries)

variable (path : String)

/-- Opens the log for an edit. That there is none is noticed after the recovery key is loaded. -/
def withLog (recovery : GivenFile) (edit : GivenFile → Except CliError Bytes) :
    Option Bytes → Except CliError Bytes
  | some content => edit { path, content }
  | none => do
    let _ ← loadVerifyingIdentity P recovery
    .error (.notFound path)

/-- What replaces a log that was read as `seen`. -/
def IdentityEdit.written (edit : IdentityEdit) (seen : Option Bytes) : Except CliError Bytes :=
  match edit with
  | create secret recovery label passphrase => identityCreate K P secret recovery label passphrase
  | enrol secret device label recovery passphrase =>
    withLog P path recovery
      (fun log => identityEnrol K P log secret device label recovery passphrase) seen
  | revoke secret device recovery passphrase =>
    withLog P path recovery
      (fun log => identityRevoke K P log secret device recovery passphrase) seen

/-- Only `identity-create` does not read the log. -/
def IdentityEdit.program (edit : IdentityEdit) : IdentityProgram Unit :=
  match edit with
  | create _ _ _ _ => do
    let written ← Program.done (edit.written K P path none)
    Program.put () written
  | _ => do
    let seen ← Program.get ()
    let written ← Program.done (edit.written K P path seen)
    Program.put () written

end

/-- The entries of a log file, none if there is no file. -/
def listed (file : Option Bytes) : List Entry :=
  (file.bind fun bytes => (Identity.decode bytes).toOption).getD []

theorem listed_some {bytes : Bytes} {entries : List Entry}
    (h : Identity.decode bytes = .ok entries) : listed (some bytes) = entries := by
  simp [listed, h, Except.toOption]

section
variable {K : Keyring.Primitives} {P : Sign.Primitives} {path : String}

/-! ## What a command writes -/

/-- The bytes are a log that some recovery key accepts. -/
def AcceptedLog (K : Keyring.Primitives) (P : Sign.Primitives) (bytes : Bytes) : Prop :=
  ∃ entries, Identity.decode bytes = .ok entries ∧
    ∃ (key : VerifyingIdentity P) (membership : Identity.Membership P),
      Identity.replay K.crypto.sha256 entries key = .ok membership

/-- There is no log, or one that is accepted. -/
def StandingLog (K : Keyring.Primitives) (P : Sign.Primitives) (file : Option Bytes) : Prop :=
  file = none ∨ ∃ bytes, file = some bytes ∧ AcceptedLog K P bytes

/-- The bytes are what was seen, with one more entry. -/
def OneMore (K : Keyring.Primitives) (P : Sign.Primitives) (seen : Option Bytes) (bytes : Bytes) :
    Prop :=
  AcceptedLog K P bytes ∧ ∃ entry, listed (some bytes) = listed seen ++ [entry]

theorem decode_encode_of_replay {entries : List Entry} {key : VerifyingIdentity P}
    {membership : Identity.Membership P}
    (h : Identity.replay K.crypto.sha256 entries key = .ok membership) :
    Identity.decode (Identity.encode entries) = .ok entries :=
  Identity.decode_encodeFramed (fun _ => Identity.wellSized_of_replay h)
    (Identity.replay_eq_ok.mp h).2.1 .current

theorem oneMore_of_append {log recovery : GivenFile} {loaded after : IdentityLog P}
    {key : VerifyingIdentity P} {author : SigningIdentity} {event : Identity.Event}
    {sequence : Identity.Sequence} (hload : loadIdentityLog K P log recovery = .ok (loaded, key))
    (happend : loaded.append K.crypto.sha256 author event = .ok (after, sequence)) :
    OneMore K P (some log.content) (Identity.encode after.entries) := by
  obtain ⟨-, -, hdecode, rfl, membership, hreplay⟩ := loadIdentityLog_eq_ok.mp hload
  obtain ⟨after', hreplay'⟩ := (IdentityLog.append_iff_replay hreplay).mp ⟨_, happend⟩
  obtain ⟨-, -, hafter, -⟩ := IdentityLog.append_eq_ok.mp happend
  have hentries : after.entries =
      loaded.entries ++ [loaded.candidate K.crypto.sha256 author event] := by
    rw [hafter]
  rw [← hentries] at hreplay'
  have hdecode' := decode_encode_of_replay hreplay'
  refine ⟨⟨_, hdecode', _, _, hreplay'⟩, loaded.candidate K.crypto.sha256 author event, ?_⟩
  rw [listed_some hdecode', listed_some hdecode, hentries]

theorem written_of_withLog {recovery : GivenFile} {edit : GivenFile → Except CliError Bytes}
    {seen : Option Bytes} {bytes : Bytes} (h : withLog P path recovery edit seen = .ok bytes) :
    ∃ content, seen = some content ∧ edit { path, content } = .ok bytes := by
  cases seen with
  | some content => exact ⟨content, rfl, h⟩
  | none =>
    obtain ⟨_, -, h⟩ := bind_eq_ok.mp h
    cases h

/-- What a command writes is the log it has seen and one more entry; `identity-create` has seen
none. -/
theorem oneMore_of_written (hP : P.Correct) {edit : IdentityEdit} {seen : Option Bytes}
    {bytes : Bytes} (h : edit.written K P path seen = .ok bytes) :
    match edit with
    | .create _ _ _ _ => OneMore K P none bytes
    | _ => OneMore K P seen bytes := by
  cases edit with
  | create secret recovery label passphrase =>
    unfold IdentityEdit.written identityCreate at h
    simp only [bind_eq_ok, mapErr_eq_ok, pure_eq_ok] at h
    obtain ⟨founder, -, recoveryKey, -, log, hcreate, rfl⟩ := h
    obtain ⟨membership, hreplay, -⟩ := Identity.shows_create hP hcreate
    have hdecode := decode_encode_of_replay hreplay
    obtain ⟨entry, hentry⟩ : ∃ entry, log.entries = [entry] := by
      rw [(Identity.create_eq_ok.mp hcreate).2]
      exact ⟨_, rfl⟩
    refine ⟨⟨_, hdecode, _, _, hreplay⟩, entry, ?_⟩
    rw [listed_some hdecode, hentry]
    rfl
  | enrol secret device label recovery passphrase =>
    unfold IdentityEdit.written at h
    obtain ⟨content, rfl, h⟩ := written_of_withLog h
    change identityEnrol K P { path, content } secret device label recovery passphrase =
      .ok bytes at h
    unfold identityEnrol at h
    simp only [bind_eq_ok, mapErr_eq_ok, pure_eq_ok] at h
    obtain ⟨⟨loaded, key⟩, hload, author, -, newDevice, -, ⟨after, sequence⟩, henrol, rfl⟩ := h
    exact oneMore_of_append hload henrol
  | revoke secret device recovery passphrase =>
    unfold IdentityEdit.written at h
    obtain ⟨content, rfl, h⟩ := written_of_withLog h
    change identityRevoke K P { path, content } secret device recovery passphrase =
      .ok bytes at h
    unfold identityRevoke at h
    simp only [bind_eq_ok, mapErr_eq_ok, pure_eq_ok] at h
    obtain ⟨⟨loaded, key⟩, hload, author, -, target, -, ⟨after, sequence⟩, hrevoke, rfl⟩ := h
    exact oneMore_of_append hload hrevoke

/-! ## Where a command is -/

/-- How far a command has come. What it is about to write extends the log in its view. -/
inductive EditPhase (K : Keyring.Primitives) (P : Sign.Primitives) (path : String)
    (edit : IdentityEdit) : Process Unit Bytes CliError Unit → Prop
  | reading (view : Cells Unit Bytes)
      (hmore : ∀ seen bytes, edit.written K P path seen = .ok bytes → OneMore K P seen bytes) :
      EditPhase K P path edit
        ⟨.read () fun seen => Program.done (edit.written K P path seen) >>= Program.put (), view⟩
  | writing {view : Cells Unit Bytes} {bytes : Bytes} (hmore : OneMore K P (view ()) bytes) :
      EditPhase K P path edit ⟨.write () bytes (.done (.ok ())), view⟩
  | ended (view : Cells Unit Bytes) (result : Except CliError Unit) :
      EditPhase K P path edit ⟨.done result, view⟩

/-- Once it is known what replaces the log, a command is refused or about to write. -/
theorem editPhase_next {edit : IdentityEdit} {view : Cells Unit Bytes} {x : Except CliError Bytes}
    (h : ∀ bytes, x = .ok bytes → OneMore K P (view ()) bytes) :
    EditPhase K P path edit ⟨Program.done x >>= Program.put (), view⟩ := by
  cases x with
  | error e => exact .ended view (.error e)
  | ok bytes => exact .writing (h bytes rfl)

theorem editPhase_start (hP : P.Correct) (edit : IdentityEdit) :
    EditPhase K P path edit ⟨edit.program K P path, fun _ => none⟩ := by
  cases edit with
  | create secret recovery label passphrase =>
    exact editPhase_next fun bytes hwritten => oneMore_of_written hP hwritten
  | enrol secret device label recovery passphrase =>
    exact .reading _ fun seen bytes hwritten => oneMore_of_written hP hwritten
  | revoke secret device recovery passphrase =>
    exact .reading _ fun seen bytes hwritten => oneMore_of_written hP hwritten

/-- One access leaves the log as it is, or replaces it by the log in the view and one entry. -/
theorem editPhase_step {edit : IdentityEdit} {process : Process Unit Bytes CliError Unit}
    (h : EditPhase K P path edit process) (cells : Cells Unit Bytes) :
    EditPhase K P path edit (process.step cells).1 ∧
      ((∀ bytes, ¬process.Writes () bytes) ∧ (process.step cells).2 = cells ∨
        ∃ bytes, process.Writes () bytes ∧ OneMore K P (process.view ()) bytes ∧
          (process.step cells).2 () = some bytes) := by
  cases h with
  | reading view hmore =>
    refine ⟨editPhase_next ?_, Or.inl ⟨?_, rfl⟩⟩
    · intro bytes hwritten
      rw [Function.update_self]
      exact hmore _ bytes hwritten
    · intro bytes ⟨next, hnext⟩
      cases hnext
  | @writing view bytes hmore =>
    refine ⟨.ended _ _, Or.inr ⟨bytes, ⟨_, rfl⟩, hmore, ?_⟩⟩
    show Function.update cells () (some bytes) () = some bytes
    exact Function.update_self _ _ _
  | ended view result =>
    refine ⟨.ended view result, Or.inl ⟨?_, rfl⟩⟩
    intro bytes ⟨next, hnext⟩
    cases hnext

end

/-! ## Whole races -/

section
variable {ι : Type} [DecidableEq ι] {K : Keyring.Primitives} {P : Sign.Primitives} {path : String}
  {edits : ι → IdentityEdit} {file : Option Bytes}

/-- A race keeps the file a log that is accepted, and every command in a phase. -/
structure KeepsLog (K : Keyring.Primitives) (P : Sign.Primitives) (path : String)
    (edits : ι → IdentityEdit) (race : Race ι Unit Bytes CliError Unit) : Prop where
  standing : StandingLog K P (race.cells ())
  phases : ∀ i, EditPhase K P path (edits i) (race.processes i)

theorem KeepsLog.step {race : Race ι Unit Bytes CliError Unit}
    (h : KeepsLog K P path edits race) (i : ι) : KeepsLog K P path edits (race.step i) := by
  obtain ⟨hphase, hcells⟩ := editPhase_step (h.phases i) race.cells
  constructor
  · show StandingLog K P (((race.processes i).step race.cells).2 ())
    rcases hcells with ⟨-, hsame⟩ | ⟨bytes, -, hmore, hwritten⟩
    · rw [hsame]
      exact h.standing
    · rw [hwritten]
      exact Or.inr ⟨bytes, rfl, hmore.1⟩
  · intro j
    by_cases hj : j = i
    · subst hj
      rw [Race.step_self]
      exact hphase
    · rw [Race.step_other hj]
      exact h.phases j

/-- What an access takes from the log is settled by what the command writes. -/
theorem listed_step {race : Race ι Unit Bytes CliError Unit} (h : KeepsLog K P path edits race)
    (i : ι) :
    listed (race.cells ()) <+: listed ((race.step i).cells ()) ↔
      ∀ bytes, (race.processes i).Writes () bytes →
        listed (race.cells ()) = listed (some bytes) ∨
          listed (race.cells ()) <+: listed ((race.processes i).view ()) := by
  obtain ⟨-, hcells⟩ := editPhase_step (h.phases i) race.cells
  have hstep : (race.step i).cells = ((race.processes i).step race.cells).2 := rfl
  rcases hcells with ⟨hnone, hsame⟩ | ⟨bytes, ⟨next, hnext⟩, ⟨-, entry, hlisted⟩, hwritten⟩
  · rw [hstep, hsame]
    exact iff_of_true List.prefix_rfl fun bytes hwrites => absurd hwrites (hnone bytes)
  · rw [hstep, hwritten, hlisted, List.prefix_concat_iff, ← hlisted]
    constructor
    · intro hpre other ⟨next', hnext'⟩
      rw [hnext] at hnext'
      cases hnext'
      exact hpre
    · intro hall
      exact hall bytes ⟨next, hnext⟩

end

/-- **Which commands lose nothing.** Whatever commands run on one file, in whatever order their
accesses come and wherever they stop, the file is a log that is accepted. And the log only ever
grows exactly if every replacement finds it as the command has read it, or as the command is about
to write it. -/
theorem identity_log_loses_nothing_iff {ι : Type} [DecidableEq ι] (K : Keyring.Primitives)
    (P : Sign.Primitives) (hP : P.Correct) (path : String) (edits : ι → IdentityEdit)
    (file : Option Bytes) (hfile : StandingLog K P file) (schedule : List ι) :
    let race := Race.start (fun i => (edits i).program K P path) fun _ => file
    StandingLog K P ((race.run schedule).cells ()) ∧
    ((∀ s t, s ++ t <+: schedule →
        listed ((race.run s).cells ()) <+: listed ((race.run (s ++ t)).cells ())) ↔
      ∀ s i bytes, s ++ [i] <+: schedule → ((race.run s).processes i).Writes () bytes →
        listed ((race.run s).cells ()) = listed (((race.run s).processes i).view ()) ∨
          listed ((race.run s).cells ()) = listed (some bytes)) := by
  intro race
  have hstart : KeepsLog K P path edits race := ⟨hfile, fun i => editPhase_start hP (edits i)⟩
  have hkeeps : ∀ s, KeepsLog K P path edits (race.run s) :=
    fun s => Race.run_invariant (fun _ i h => h.step i) hstart s
  refine ⟨(hkeeps schedule).standing, ?_, ?_⟩
  · intro hgrows s i bytes hpre hwrites
    have hs : s <+: schedule := (List.prefix_append _ _).trans hpre
    -- what the command has read was there at some moment, and the log has only grown since
    have hview : listed (((race.run s).processes i).view ()) <+: listed ((race.run s).cells ()) := by
      cases hseen : ((race.run s).processes i).view () with
      | none => exact List.nil_prefix
      | some seen =>
        obtain ⟨before, after, hsplit, hread⟩ := Race.view_of_run s i () hseen
        have hgrown := hgrows before after (hsplit ▸ hs)
        rw [hsplit, hread] at hgrown
        exact hgrown
    have hstep := hgrows s [i] hpre
    rw [Race.run_snoc, listed_step (hkeeps s)] at hstep
    rcases hstep bytes hwrites with hsame | hbefore
    · exact Or.inr hsame
    · exact Or.inl (hbefore.eq_of_length (Nat.le_antisymm hbefore.length_le hview.length_le))
  · intro hundisturbed s t hpre
    refine Race.run_related (r := fun a b => listed (a ()) <+: listed (b ()))
      (fun _ => List.prefix_rfl) (fun hab hbc => hab.trans hbc) ?_ s t hpre
    intro s i hpre
    rw [Race.run_snoc, listed_step (hkeeps s)]
    intro bytes hwrites
    rcases hundisturbed s i bytes hpre hwrites with hsame | hdone
    · exact Or.inr (hsame ▸ List.prefix_rfl)
    · exact Or.inl hdone

def sampleSecretFile : GivenFile := ⟨"me.key", List.replicate 32 1⟩

def sampleRecoveryFile : GivenFile :=
  ⟨"spare.pub", ((⟨Vector.replicate 32 2⟩ : SigningIdentity).verifyingKey .toy).toBytes.toList⟩

/-- Two logs are started at one place. -/
def sampleEdits : Bool → IdentityEdit :=
  two (.create sampleSecretFile sampleRecoveryFile "laptop" "")
    (.create sampleSecretFile sampleRecoveryFile "phone" "")

theorem identity_log_loses_nothing_iff_created :
    let race := Race.start (fun i => (sampleEdits i).program sampleKeys .toy "me.log") fun _ => none
    StandingLog sampleKeys .toy ((race.run [false, true]).cells ()) ∧
    ((∀ s t, s ++ t <+: [false, true] →
        listed ((race.run s).cells ()) <+: listed ((race.run (s ++ t)).cells ())) ↔
      ∀ s i bytes, s ++ [i] <+: [false, true] → ((race.run s).processes i).Writes () bytes →
        listed ((race.run s).cells ()) = listed (((race.run s).processes i).view ()) ∨
          listed ((race.run s).cells ()) = listed (some bytes)) :=
  identity_log_loses_nothing_iff sampleKeys .toy Primitives.toy_correct "me.log" sampleEdits none
    (Or.inl rfl) [false, true]

end HideProtocol.Cli
