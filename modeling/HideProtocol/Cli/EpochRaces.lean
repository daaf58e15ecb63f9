import HideProtocol.Cli.EpochsTheorems

/-!
# Epoch commands side by side

Nothing keeps two epoch commands from working on one pair of files at the same time. Each reads
both files before it replaces any, and one that was overtaken in between replaces what the other
has written: the history of the one can end up beside the store of the other, and then names a key
whose secret nobody has.

As long as every replacement finds the two files as the replacing command last read or wrote
them, the secrets of all published epochs are kept.
-/

namespace HideProtocol.Cli

open Lib Crypto Keyring Epoch

/-- A command that changes an existing chain. -/
inductive EpochEdit where
  | advance (drawn : Drawn)
  | erase (number : EpochNumber) (drawn : Drawn)

/-- The files while commands run side by side, one for each `i : ι`, and the epochs for which an
erase has replaced the store. -/
structure EpochRace (ι : Type) where
  processes : ι → Process EpochFile Bytes CliError Unit
  files : Files
  erased : List EpochNumber

section
variable (K : Keyring.Primitives) (passphrase chainPath storePath : String)

def EpochEdit.program : EpochEdit → EpochProgram Unit
  | advance drawn => epochAdvanceWith K passphrase chainPath storePath drawn
  | erase number drawn => epochEraseWith K passphrase chainPath storePath number drawn

/-- What an edit does once the files are loaded. -/
def EpochEdit.next (edit : EpochEdit) (chain : EpochChain) : EpochProgram Unit :=
  match edit with
  | advance drawn => .done (advancePlan K passphrase drawn chain) >>= fun files =>
      .write .store files.1 (.write .history files.2 (.done (.ok ())))
  | erase number drawn => .done (erasePlan K passphrase number drawn chain) >>= fun sealed =>
      .write .store sealed (.done (.ok ()))

end

/-- The epochs that an edit has erased once it has replaced the store. -/
def EpochEdit.erases : EpochEdit → List EpochNumber
  | advance _ => []
  | erase number _ => [number]

namespace EpochRace
variable {ι : Type} [DecidableEq ι]

/-- All commands at their start, on the same files. -/
def start (K : Keyring.Primitives) (passphrase chainPath storePath : String)
    (edits : ι → EpochEdit) (files : Files) (erased : List EpochNumber) : EpochRace ι where
  processes i := ⟨(edits i).program K passphrase chainPath storePath, fun _ => none⟩
  files
  erased

/-- One access to a file by command `i`. -/
def step (edits : ι → EpochEdit) (race : EpochRace ι) (i : ι) : EpochRace ι where
  processes := Function.update race.processes i ((race.processes i).step race.files).1
  files := ((race.processes i).step race.files).2
  erased :=
    if (race.processes i).writing = true then (edits i).erases ++ race.erased else race.erased

/-- A schedule says whose turn it is. -/
def run (edits : ι → EpochEdit) (race : EpochRace ι) (schedule : List ι) : EpochRace ι :=
  schedule.foldl (step edits) race

/-- Every replacement of the schedule finds both files as the replacing command last read or
wrote them. -/
def Undisturbed (edits : ι → EpochEdit) (race : EpochRace ι) : List ι → Prop
  | [] => True
  | i :: schedule =>
    ((race.processes i).writing = true → (race.processes i).view = race.files) ∧
      Undisturbed edits (race.step edits i) schedule

/-- Every command has ended. -/
def Ended (race : EpochRace ι) : Prop := ∀ i, (race.processes i).ended = true

end EpochRace

/-! ## Where a command is -/

variable {K : Keyring.Primitives} {passphrase chainPath storePath : String}

theorem EpochEdit.program_eq (edit : EpochEdit) :
    edit.program K passphrase chainPath storePath =
      loadEpochs K passphrase chainPath storePath >>= edit.next K passphrase := by
  cases edit with
  | advance drawn => exact epochAdvanceWith_eq drawn
  | erase number drawn => exact epochEraseWith_eq number drawn

/-- How far a command has come. What it is about to write was computed from its view; a history
that it is about to write belongs to the store in its view. -/
inductive Phase (K : Keyring.Primitives) (passphrase chainPath storePath : String)
    (edit : EpochEdit) (erased : List EpochNumber) :
    Process EpochFile Bytes CliError Unit → Prop
  | loading (view : Files) :
      Phase K passphrase chainPath storePath edit erased
        ⟨edit.program K passphrase chainPath storePath, view⟩
  | joining {view : Files} {records : List EpochRecord}
      (hrecords : readHistory K chainPath (view .history) = .ok records) :
      Phase K passphrase chainPath storePath edit erased
        ⟨.read .store fun store =>
          .done (joinStore K passphrase chainPath storePath records store) >>=
            edit.next K passphrase, view⟩
  | loaded {view : Files} {chain : EpochChain} (hchain : Loaded K passphrase view chain)
      (hwriting : (⟨edit.next K passphrase chain, view⟩ :
        Process EpochFile Bytes CliError Unit).writing = true) :
      Phase K passphrase chainPath storePath edit erased ⟨edit.next K passphrase chain, view⟩
  | publishing {view : Files} {history : Bytes}
      (hkept : Kept K passphrase (Function.update view .history (some history)) erased) :
      Phase K passphrase chainPath storePath edit erased
        ⟨.write .history history (.done (.ok ())), view⟩
  | ended (view : Files) (result : Except CliError Unit) :
      Phase K passphrase chainPath storePath edit erased ⟨.done result, view⟩

theorem Kept.mono {files : Files} {erased erased' : List EpochNumber}
    (h : Kept K passphrase files erased) (hsub : erased ⊆ erased') :
    Kept K passphrase files erased' := by
  intro records i record hpublished hrecord hnot
  exact h records i record hpublished hrecord fun hmem => hnot (hsub hmem)

theorem Phase.mono {edit : EpochEdit} {erased erased' : List EpochNumber}
    {process : Process EpochFile Bytes CliError Unit}
    (h : Phase K passphrase chainPath storePath edit erased process) (hsub : erased ⊆ erased') :
    Phase K passphrase chainPath storePath edit erased' process := by
  cases h with
  | loading view => exact .loading view
  | joining hrecords => exact .joining hrecords
  | loaded hchain hwriting => exact .loaded hchain hwriting
  | publishing hkept => exact .publishing (hkept.mono hsub)
  | ended view result => exact .ended view result

/-- After loading, an edit is refused or about to write. -/
theorem phase_next {edit : EpochEdit} {erased : List EpochNumber} {view : Files}
    {chain : EpochChain} (hchain : Loaded K passphrase view chain) :
    Phase K passphrase chainPath storePath edit erased ⟨edit.next K passphrase chain, view⟩ := by
  cases edit with
  | advance drawn =>
    cases hplan : advancePlan K passphrase drawn chain with
    | error e =>
      rw [EpochEdit.next, hplan]
      exact .ended view _
    | ok plan =>
      apply Phase.loaded hchain
      rw [EpochEdit.next, hplan]
      rfl
  | erase number drawn =>
    cases hplan : erasePlan K passphrase number drawn chain with
    | error e =>
      rw [EpochEdit.next, hplan]
      exact .ended view _
    | ok sealed =>
      apply Phase.loaded hchain
      rw [EpochEdit.next, hplan]
      rfl

/-! ## One access -/

section
variable {edit : EpochEdit} {erased : List EpochNumber} {files : Files} {chain : EpochChain}

/-- The store of an edit that finds the files as it loaded them keeps every secret, and so does
the history that goes with it. -/
theorem loaded_step (hK : K.Seals) (hkept : Kept K passphrase files erased)
    (hchain : Loaded K passphrase files chain)
    (hwriting : (⟨edit.next K passphrase chain, files⟩ :
      Process EpochFile Bytes CliError Unit).writing = true) :
    let after := Process.step ⟨edit.next K passphrase chain, files⟩ files
    Kept K passphrase after.2 (edit.erases ++ erased) ∧
      Phase K passphrase chainPath storePath edit (edit.erases ++ erased) after.1 := by
  cases edit with
  | advance drawn =>
    cases hplan : advancePlan K passphrase drawn chain with
    | error e =>
      rw [EpochEdit.next, hplan] at hwriting
      cases hwriting
    | ok plan =>
      obtain ⟨⟨-, record, -, hrecords, -⟩, hsealed, hhistory⟩ := advancePlan_eq_ok hplan
      have hadvanced := hchain.coherent.advance drawn.secret
      rw [EpochEdit.next, hplan]
      constructor
      · exact kept_of_chain hK hadvanced hsealed rfl (hrecords ▸ List.prefix_append _ _)
          hchain.published fun i _ => advance_full hkept hchain
      · apply Phase.publishing
        exact kept_of_chain hK hadvanced hsealed rfl List.prefix_rfl
          ⟨plan.2, rfl, hhistory ▸ decodeRecords_of_verify hadvanced.verified⟩
          fun i _ => advance_full hkept hchain
  | erase number drawn =>
    cases hplan : erasePlan K passphrase number drawn chain with
    | error e =>
      rw [EpochEdit.next, hplan] at hwriting
      cases hwriting
    | ok sealed =>
      obtain ⟨hnumber, hsealed⟩ := erasePlan_eq_ok hplan
      have hlen := hchain.coherent.length
      have hrecords : (chain.erase 64 number).2.records = chain.records :=
        (EpochChain.erase_frame chain number).1
      rw [EpochEdit.next, hplan]
      constructor
      · exact kept_of_chain hK (hchain.coherent.erase number) hsealed rfl
          (hrecords ▸ List.prefix_rfl) hchain.published
          fun i hi => erase_full hkept hchain (by omega) hi
      · exact .ended _ _

/-- One access of a command keeps the secrets, if a replacement finds the files as the command
last saw them. -/
theorem phase_step (hK : K.Seals) {process : Process EpochFile Bytes CliError Unit}
    (hkept : Kept K passphrase files erased)
    (hphase : Phase K passphrase chainPath storePath edit erased process)
    (hfresh : process.writing = true → process.view = files) :
    let erased' := if process.writing = true then edit.erases ++ erased else erased
    Kept K passphrase (process.step files).2 erased' ∧
      Phase K passphrase chainPath storePath edit erased' (process.step files).1 := by
  intro erased'
  cases hphase with
  | loading view =>
    have hprogram := @EpochEdit.program_eq K passphrase chainPath storePath edit
    rw [loadEpochs_bind] at hprogram
    have herased : erased' = erased := if_neg (by rw [hprogram]; exact Bool.false_ne_true)
    rw [herased, hprogram]
    refine ⟨hkept, ?_⟩
    show Phase _ _ _ _ _ _ ⟨.done (readHistory K chainPath (files .history)) >>= _, _⟩
    cases hrecords : readHistory K chainPath (files .history) with
    | error e => exact .ended _ _
    | ok records =>
      apply Phase.joining
      rw [Function.update_self]
      exact hrecords
  | @joining view records hrecords =>
    refine ⟨hkept, ?_⟩
    show Phase _ _ _ _ _ _
      ⟨.done (joinStore K passphrase chainPath storePath records (files .store)) >>= _, _⟩
    cases hjoin : joinStore K passphrase chainPath storePath records (files .store) with
    | error e => exact .ended _ _
    | ok chain =>
      apply phase_next
      -- what was read, one file after the other, is now the command's view
      have hload : loadFiles K passphrase chainPath storePath
          (Function.update view .store (files .store)) = .ok chain := by
        unfold loadFiles
        rw [Function.update_of_ne (by decide), hrecords, ok_bind, Function.update_self]
        exact hjoin
      exact loaded_of_loadFiles hload
  | @loaded view chain hchain hwriting =>
    have hview : view = files := hfresh hwriting
    subst hview
    have herased : erased' = edit.erases ++ erased := if_pos hwriting
    rw [herased]
    exact loaded_step hK hkept hchain hwriting
  | @publishing view history hhistory =>
    have hview : view = files := hfresh rfl
    subst hview
    have hsub : erased ⊆ erased' := List.subset_append_right _ _
    exact ⟨hhistory.mono hsub, .ended _ _⟩
  | ended view result => exact ⟨hkept, .ended view result⟩

end

/-! ## Whole races -/

section
variable {ι : Type} [DecidableEq ι] {edits : ι → EpochEdit}

/-- What a race keeps: the secrets of the published epochs, and every command in a phase. -/
structure EpochRace.Keeps (K : Keyring.Primitives) (passphrase chainPath storePath : String)
    (edits : ι → EpochEdit) (race : EpochRace ι) : Prop where
  kept : Kept K passphrase race.files race.erased
  phases : ∀ i, Phase K passphrase chainPath storePath (edits i) race.erased (race.processes i)

theorem EpochRace.Keeps.step (hK : K.Seals) {race : EpochRace ι}
    (h : race.Keeps K passphrase chainPath storePath edits) {i : ι}
    (hfresh : (race.processes i).writing = true → (race.processes i).view = race.files) :
    (race.step edits i).Keeps K passphrase chainPath storePath edits := by
  obtain ⟨hkept, hphase⟩ := phase_step hK h.kept (h.phases i) hfresh
  refine ⟨hkept, ?_⟩
  intro j
  by_cases hj : j = i
  · subst hj
    have hprocess : (race.step edits j).processes j = ((race.processes j).step race.files).1 :=
      Function.update_self _ _ _
    rw [hprocess]
    exact hphase
  · have hprocess : (race.step edits i).processes j = race.processes j :=
      Function.update_of_ne hj _ _
    rw [hprocess]
    apply (h.phases j).mono
    show race.erased ⊆ if _ then _ else _
    split
    · exact List.subset_append_right _ _
    · exact List.Subset.refl _

theorem EpochRace.Keeps.run (hK : K.Seals) {race : EpochRace ι}
    (h : race.Keeps K passphrase chainPath storePath edits) {schedule : List ι}
    (hundisturbed : race.Undisturbed edits schedule) :
    (race.run edits schedule).Keeps K passphrase chainPath storePath edits := by
  induction schedule generalizing race with
  | nil => exact h
  | cons i schedule ih => exact ih (h.step hK hundisturbed.1) hundisturbed.2

omit [DecidableEq ι] in
theorem EpochRace.keeps_start {files : Files} {erased : List EpochNumber}
    (h : Kept K passphrase files erased) :
    (EpochRace.start K passphrase chainPath storePath edits files erased).Keeps K passphrase
      chainPath storePath edits :=
  ⟨h, fun _ => .loading _⟩

end

/-- Commands that run side by side lose no published key, as long as every replacement finds the
files as the replacing command last saw them. -/
theorem undisturbed_race_keeps_secrets {ι : Type} [DecidableEq ι] (K : Keyring.Primitives)
    (hK : K.Seals) (passphrase chainPath storePath : String) (edits : ι → EpochEdit)
    (files : Files) (erased : List EpochNumber) (hkept : Kept K passphrase files erased)
    (schedule : List ι)
    (hundisturbed : (EpochRace.start K passphrase chainPath storePath edits files
      erased).Undisturbed edits schedule) :
    let race := (EpochRace.start K passphrase chainPath storePath edits files erased).run edits
      schedule
    ∀ records i record, Published race.files records → records[i]? = some record →
      UInt64.ofNat i ∉ race.erased →
      HoldsSecret K passphrase race.files (UInt64.ofNat i) record.publicKey := by
  exact ((EpochRace.keeps_start hkept).run hK hundisturbed).kept

/-! ## An overtaken command -/

/-- The first access of a command reads the history. -/
theorem step_load {edit : EpochEdit} {files view : Files} {records : List EpochRecord}
    (h : readHistory K chainPath (files .history) = .ok records) :
    Process.step ⟨edit.program K passphrase chainPath storePath, view⟩ files =
      (⟨.read .store fun store =>
          .done (joinStore K passphrase chainPath storePath records store) >>=
            edit.next K passphrase,
        Function.update view .history (files .history)⟩, files) := by
  rw [EpochEdit.program_eq, loadEpochs_bind]
  show (Process.mk (.done (readHistory K chainPath (files .history)) >>= _) _, files) = _
  rw [h]
  rfl

/-- A command that reads both files in a row has loaded their chain. -/
theorem step_step_load {edit : EpochEdit} {files view : Files} {chain : EpochChain}
    (h : loadFiles K passphrase chainPath storePath files = .ok chain) :
    let first := Process.step ⟨edit.program K passphrase chainPath storePath, view⟩ files
    first.1.step first.2 = (⟨edit.next K passphrase chain, files⟩, files) := by
  obtain ⟨records, hrecords, hjoin⟩ := bind_eq_ok.mp h
  have hview : Function.update (Function.update view .history (files .history)) .store
      (files .store) = files := by
    funext file
    cases file <;> rfl
  rw [step_load hrecords]
  show (Process.mk (.done (joinStore K passphrase chainPath storePath records (files .store)) >>= _)
    (Function.update (Function.update view .history (files .history)) .store (files .store)),
      files) = _
  rw [hjoin, hview]
  rfl

/-- Two commands, by number. -/
def two {α : Type} (first second : α) (i : Bool) : α := cond i second first

theorem two_false {α : Type} (first second : α) : two first second false = first := rfl

theorem two_true {α : Type} (first second : α) : two first second true = second := rfl

theorem update_two_false {α : Type} (first second x : α) :
    Function.update (two first second) false x = two x second := by
  funext i
  cases i <;> rfl

theorem update_two_true {α : Type} (first second x : α) :
    Function.update (two first second) true x = two first x := by
  funext i
  cases i <;> rfl

section
variable {a b : Drawn} {first second : Process EpochFile Bytes CliError Unit} {files : Files}
  {erased : List EpochNumber}

/-- An access of the first of two commands that advance. -/
theorem step_first :
    EpochRace.step (two (.advance a) (.advance b)) ⟨two first second, files, erased⟩ false =
      ⟨two (first.step files).1 second, (first.step files).2, erased⟩ := by
  unfold EpochRace.step
  rw [update_two_false]
  congr
  exact ite_self _

theorem step_second :
    EpochRace.step (two (.advance a) (.advance b)) ⟨two first second, files, erased⟩ true =
      ⟨two first (second.step files).1, (second.step files).2, erased⟩ := by
  unfold EpochRace.step
  rw [update_two_true]
  congr
  exact ite_self _

theorem start_two :
    EpochRace.start K passphrase chainPath storePath (two (.advance a) (.advance b)) files erased =
      ⟨two ⟨(EpochEdit.advance a).program K passphrase chainPath storePath, fun _ => none⟩
        ⟨(EpochEdit.advance b).program K passphrase chainPath storePath, fun _ => none⟩, files,
        erased⟩ := by
  unfold EpochRace.start
  congr
  funext i
  cases i <;> rfl

end

theorem next_of_advancePlan {drawn : Drawn} {chain : EpochChain} {plan : Bytes × Bytes}
    (h : advancePlan K passphrase drawn chain = .ok plan) :
    (EpochEdit.advance drawn).next K passphrase chain =
      .write .store plan.1 (.write .history plan.2 (.done (.ok ()))) := by
  rw [EpochEdit.next, h]
  rfl

/-- Both commands load the same chain, both replace the store, and the one whose store is gone
publishes last. -/
def overtaking : List Bool := [false, false, true, true, false, true, true, false]

/-- The store of the one stays beside the history of the other. -/
theorem run_overtaking {a b : Drawn} {files : Files} {erased : List EpochNumber}
    {chain : EpochChain} (hload : loadFiles K passphrase chainPath storePath files = .ok chain)
    {planA planB : Bytes × Bytes} (hA : advancePlan K passphrase a chain = .ok planA)
    (hB : advancePlan K passphrase b chain = .ok planB) :
    let edits := two (.advance a) (.advance b)
    let race := (EpochRace.start K passphrase chainPath storePath edits files erased).run edits
      overtaking
    race.Ended ∧ race.erased = erased ∧ race.files =
      Function.update (Function.update files .store (some planB.1)) .history (some planA.2) := by
  intro edits race
  have hrace : race = EpochRace.run edits _ overtaking := rfl
  rw [start_two] at hrace
  simp only [EpochRace.run, overtaking, List.foldl_cons, List.foldl_nil, edits, step_first,
    step_second, step_step_load hload, next_of_advancePlan hA, next_of_advancePlan hB] at hrace
  rw [hrace]
  refine ⟨?_, rfl, ?_⟩
  · intro i
    cases i <;> rfl
  · funext file
    cases file <;> rfl

/-- The published key is the one of the history, and its secret is not in the store. -/
theorem not_kept_overtaking (hK : K.Seals) {a b : Drawn} {files : Files}
    {erased : List EpochNumber} {chain : EpochChain} (hchain : Loaded K passphrase files chain)
    {planA planB : Bytes × Bytes} (hA : advancePlan K passphrase a chain = .ok planA)
    (hB : advancePlan K passphrase b chain = .ok planB)
    (hne : ∀ secretA secretB, a.secret = .ok secretA → b.secret = .ok secretB →
      EpochChain.publicKeyBytes K.crypto secretB ≠ EpochChain.publicKeyBytes K.crypto secretA)
    (hnot : UInt64.ofNat chain.records.length ∉ erased) :
    ¬Kept K passphrase
      (Function.update (Function.update files .store (some planB.1)) .history (some planA.2))
      erased := by
  intro hkept
  obtain ⟨⟨secretA, recordA, ha, hrecordsA, hkeyA, -⟩, -, hhistory⟩ := advancePlan_eq_ok hA
  obtain ⟨⟨secretB, -, hb, -, -, hslots⟩, hsealed, -⟩ := advancePlan_eq_ok hB
  have hadvancedA := hchain.coherent.advance a.secret
  have hadvancedB := hchain.coherent.advance b.secret
  obtain ⟨file, store, secret, hfile, hopen, hget, hkey⟩ := hkept
    (chain.records ++ [recordA]) chain.records.length recordA
    ⟨planA.2, rfl, by rw [hhistory, ← hrecordsA, decodeRecords_of_verify hadvancedA.verified]⟩
    List.getElem?_concat_length hnot
  obtain ⟨-, store', hopen', -, hentries⟩ := sealChain_opens hK hadvancedB hsealed
  obtain rfl : planB.1 = file := Option.some.inj hfile
  obtain rfl : store = store' := Except.ok.inj (hopen.symm.trans hopen')
  rw [EpochStore.get_eq_some_iff, hentries, EpochChain.mem_held hadvancedB] at hget
  obtain ⟨slot, hslot, hsecret⟩ := hget
  have hlen := hchain.coherent.length
  have hmax := length_of_verify hchain.coherent.verified
  have hsize : maxChainEntries < UInt64.size := by decide
  -- the slot of the new epoch is the one the second command made
  rw [UInt64.toNat_ofNat_of_lt' (by omega), hslots, ← hlen, List.getElem?_concat_length] at hslot
  rw [← Option.some.inj hslot] at hsecret
  apply hne secretA secretB ha hb
  rw [Option.some.inj hsecret, hkey, hkeyA]

/-! ## A sample race -/

/-- The two files of a chain of one epoch. -/
def raceFiles : Files := chainFiles firstChain

theorem firstChain_coherent : firstChain.Coherent sampleKeys.crypto :=
  EpochChain.Coherent.empty.advance _

theorem raceFiles_load :
    loadFiles sampleKeys "correct horse" "history" "store" raceFiles = .ok firstChain := by
  apply chainFiles_load firstChain_coherent (by decide) (by decide)
  rw [length_encodeRecords firstChain_coherent.verified]
  decide

theorem raceFiles_kept : Kept sampleKeys "correct horse" raceFiles [] := by
  obtain ⟨sealed, hsealed, hstore⟩ := chainFiles_store firstChain_coherent (by decide)
  refine kept_of_chain sampleKeys_seals firstChain_coherent hsealed hstore List.prefix_rfl
    (loaded_of_loadFiles raceFiles_load).published ?_
  intro i _ _ hempty
  obtain ⟨slot, hslot, -⟩ := hempty.of_advance
  cases hslot

theorem advancePlan_drawing (byte : UInt8) :
    ∃ plan, advancePlan sampleKeys "correct horse" (drawing byte) firstChain = .ok plan :=
  advancePlan_succeeds sampleKeys_seals firstChain_coherent (by decide) (by decide) (by decide)
    (drawing_complete byte)

/-- Both commands end, and the history names a key whose secret is lost. -/
theorem overtaking_loses_a_key :
    let edits := two (.advance (drawing 8)) (.advance (drawing 9))
    let race := (EpochRace.start sampleKeys "correct horse" "history" "store" edits raceFiles
      []).run edits overtaking
    sampleKeys.Seals ∧ Kept sampleKeys "correct horse" raceFiles [] ∧ race.Ended ∧
      ¬Kept sampleKeys "correct horse" race.files race.erased := by
  intro edits race
  obtain ⟨planA, hA⟩ := advancePlan_drawing 8
  obtain ⟨planB, hB⟩ := advancePlan_drawing 9
  obtain ⟨hended, herased, hfiles⟩ :=
    @run_overtaking sampleKeys "correct horse" "history" "store" _ _ _ [] _ raceFiles_load _ _ hA hB
  refine ⟨sampleKeys_seals, raceFiles_kept, hended, ?_⟩
  rw [herased, hfiles]
  refine not_kept_overtaking sampleKeys_seals (loaded_of_loadFiles raceFiles_load) hA hB ?_ (by simp)
  intro secretA secretB ha hb
  cases ha
  cases hb
  decide +kernel

/-- One command after the other. -/
def inTurn : List Bool := [false, false, false, false, true, true, true, true]

/-- The files of a chain that was advanced. -/
def advancedFiles (files : Files) (plan : Bytes × Bytes) : Files :=
  Function.update (Function.update files .store (some plan.1)) .history (some plan.2)

theorem writing_program {edit : EpochEdit} {view : Files} :
    (Process.mk (edit.program K passphrase chainPath storePath) view).writing = false := by
  rw [EpochEdit.program_eq, loadEpochs_bind]
  rfl

theorem writing_step_load {edit : EpochEdit} {files view : Files} {chain : EpochChain}
    (h : loadFiles K passphrase chainPath storePath files = .ok chain) :
    (Process.step ⟨edit.program K passphrase chainPath storePath, view⟩ files).1.writing =
      false := by
  obtain ⟨records, hrecords, -⟩ := bind_eq_ok.mp h
  rw [step_load hrecords]
  rfl

/-- Each of two commands that take turns finds the files as it read them, and both end. -/
theorem run_inTurn {a b : Drawn} {files : Files} {erased : List EpochNumber}
    {chain chain' : EpochChain} {planA planB : Bytes × Bytes}
    (hload : loadFiles K passphrase chainPath storePath files = .ok chain)
    (hA : advancePlan K passphrase a chain = .ok planA)
    (hload' : loadFiles K passphrase chainPath storePath (advancedFiles files planA) = .ok chain')
    (hB : advancePlan K passphrase b chain' = .ok planB) :
    let edits := two (.advance a) (.advance b)
    let start := EpochRace.start K passphrase chainPath storePath edits files erased
    start.Undisturbed edits inTurn ∧ (start.run edits inTurn).Ended ∧
      (start.run edits inTurn).erased = erased ∧
      (start.run edits inTurn).files = advancedFiles (advancedFiles files planA) planB := by
  intro edits start
  have hwrite : ∀ (file : EpochFile) (value : Bytes) (next : EpochProgram Unit)
      (view files : Files), Process.step ⟨.write file value next, view⟩ files =
        (⟨next, Function.update view file (some value)⟩,
          Function.update files file (some value)) := fun _ _ _ _ _ => rfl
  have hfiles : Function.update (Function.update files .store (some planA.1)) .history
      (some planA.2) = advancedFiles files planA := rfl
  have hstart : start = EpochRace.start K passphrase chainPath storePath edits files erased := rfl
  rw [start_two] at hstart
  rw [hstart]
  constructor
  · -- no command writes before it has read both files, and then it has seen them as they are
    simp only [EpochRace.Undisturbed, inTurn, edits, step_first, step_second, two_false, two_true,
      step_step_load hload, step_step_load hload', next_of_advancePlan hA, next_of_advancePlan hB,
      hwrite, hfiles, writing_program, writing_step_load hload, writing_step_load hload',
      Bool.false_eq_true, false_implies, implies_true, and_self]
  · simp only [EpochRace.run, inTurn, List.foldl_cons, List.foldl_nil, edits, step_first,
      step_second, step_step_load hload, step_step_load hload', next_of_advancePlan hA,
      next_of_advancePlan hB, hwrite, hfiles]
    refine ⟨?_, trivial, rfl⟩
    intro i
    cases i <;> rfl

theorem secondChain_load {plan : Bytes × Bytes}
    (h : advancePlan sampleKeys "correct horse" (drawing 8) firstChain = .ok plan) :
    loadFiles sampleKeys "correct horse" "history" "store" (advancedFiles raceFiles plan) =
      .ok secondChain := by
  obtain ⟨-, hsealed, hhistory⟩ := advancePlan_eq_ok h
  have hcoherent : secondChain.Coherent sampleKeys.crypto := firstChain_coherent.advance _
  apply (loadFiles_of_chain sampleKeys_seals hcoherent (by decide) hsealed rfl _).mpr
  · rw [length_encodeRecords hcoherent.verified]
    decide
  · show some plan.2 = _
    rw [hhistory]
    rfl

/-- The theorem where two commands advance one chain in turn: both end, and the secrets of all
three published epochs are kept. -/
theorem undisturbed_race_keeps_secrets_in_turn :
    let edits := two (.advance (drawing 8)) (.advance (drawing 9))
    let race := (EpochRace.start sampleKeys "correct horse" "history" "store" edits raceFiles
      []).run edits inTurn
    race.Ended ∧ ∃ records, Published race.files records ∧ records.length = 3 ∧
      ∀ i record, records[i]? = some record →
        HoldsSecret sampleKeys "correct horse" race.files (UInt64.ofNat i) record.publicKey := by
  intro edits race
  obtain ⟨planA, hA⟩ := advancePlan_drawing 8
  have hcoherent : secondChain.Coherent sampleKeys.crypto := firstChain_coherent.advance _
  obtain ⟨planB, hB⟩ := @advancePlan_succeeds sampleKeys "correct horse" sampleKeys_seals
    secondChain hcoherent (by decide) (by decide) (by decide) _ (drawing_complete 9)
  obtain ⟨hundisturbed, hended, herased, hfiles⟩ := @run_inTurn sampleKeys "correct horse" "history"
    "store" _ _ raceFiles [] _ _ _ _ raceFiles_load hA (secondChain_load hA) hB
  have hkept := undisturbed_race_keeps_secrets sampleKeys sampleKeys_seals "correct horse" "history"
    "store" edits raceFiles [] raceFiles_kept inTurn hundisturbed
  obtain ⟨⟨_, record, -, hrecords, -⟩, -, hhistory⟩ := advancePlan_eq_ok hB
  have hverified := (hcoherent.advance (drawing 9).secret).verified
  have hpublished : Published race.files
      (secondChain.advance sampleKeys.crypto (drawing 9).secret).2.records := by
    refine ⟨planB.2, ?_, ?_⟩
    · rw [show race.files = _ from hfiles]
      exact Function.update_self _ _ _
    · rw [hhistory]
      exact decodeRecords_of_verify hverified
  refine ⟨hended, _, hpublished, ?_, ?_⟩
  · rw [hrecords, List.length_append]
    rfl
  · intro i record hrecord
    apply hkept _ i record hpublished hrecord
    rw [herased]
    exact List.not_mem_nil

end HideProtocol.Cli
