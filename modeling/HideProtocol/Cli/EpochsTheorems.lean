import HideProtocol.Cli.Epochs

/-!
# A published epoch keeps its secret

Whatever commands are run, and wherever each of them crashes, the store holds the secret of every
epoch that the history names and nobody erased. A crash between the two files leaves the store one
epoch ahead, which is the harmless side.
-/

namespace HideProtocol.Cli

open Lib Crypto Keyring Epoch

variable {K : Keyring.Primitives} {passphrase chainPath storePath : String}

/-! ## The store of a chain -/

/-- The next item of an ascending list goes to the end. -/
theorem insert_next {item : EpochNumber × RecipientSecret}
    {items : List (EpochNumber × RecipientSecret)} {store next : EpochStore}
    (hascending : (store.entries ++ item :: items).Pairwise fun a b => a.1 < b.1)
    (hinsert : store.insert item.1 item.2 = .ok next) :
    next.chainHead = store.chainHead ∧ next.entries ++ items = store.entries ++ item :: items := by
  obtain ⟨hhead, hentries⟩ := EpochStore.insert_eq_ok hinsert
  have habove : ∀ entry ∈ store.entries, entry.1 < item.1 := by
    intro entry hentry
    exact (List.pairwise_append.mp hascending).2.2 entry hentry item List.mem_cons_self
  refine ⟨hhead, ?_⟩
  rw [hentries, EpochStore.insertEntry_append habove, List.append_assoc]
  rfl

/-- Inserting ascending items appends them. -/
theorem foldlM_insert {items : List (EpochNumber × RecipientSecret)} {store final : EpochStore}
    (hascending : (store.entries ++ items).Pairwise fun a b => a.1 < b.1)
    (h : items.foldlM (fun store item => store.insert item.1 item.2) store = .ok final) :
    final.chainHead = store.chainHead ∧ final.entries = store.entries ++ items := by
  induction items generalizing store with
  | nil =>
    cases h
    exact ⟨rfl, (List.append_nil _).symm⟩
  | cons item items ih =>
    rw [List.foldlM_cons] at h
    obtain ⟨next, hinsert, h⟩ := bind_eq_ok.mp h
    obtain ⟨hhead, hnext⟩ := insert_next hascending hinsert
    obtain ⟨hfinal, hlist⟩ := ih (hnext ▸ hascending) h
    exact ⟨hfinal.trans hhead, hlist.trans hnext⟩

theorem storeOf_eq_ok {chain : EpochChain} (hchain : chain.Coherent K.crypto) {store : EpochStore}
    (h : storeOf chain = .ok store) :
    store.chainHead = chain.head ∧ store.entries = chain.held := by
  refine foldlM_insert ?_ h
  exact EpochChain.held_ascending hchain

/-- What is sealed for a chain opens to the secrets that the chain holds. -/
theorem sealChain_opens (hK : K.Seals) {chain : EpochChain} (hchain : chain.Coherent K.crypto)
    {drawn : Drawn} {sealed : Bytes} (h : sealChain K passphrase chain drawn = .ok sealed) :
    sealed.length ≤ Store.maxFileLen ∧
    ∃ store, EpochStore.«open» K sealed passphrase = .ok store ∧ store.chainHead = chain.head ∧
      store.entries = chain.held := by
  unfold sealChain at h
  obtain ⟨store, hstore, h⟩ := bind_eq_ok.mp h
  obtain ⟨hhead, hentries⟩ := storeOf_eq_ok hchain (mapErr_eq_ok.mp hstore)
  have hseal := mapErr_eq_ok.mp h
  unfold EpochStore.«seal» at hseal
  obtain ⟨salt, -, hseal⟩ := bind_eq_ok.mp hseal
  obtain ⟨s, hgoes, rfl⟩ :=
    (@SealRun.result_eq_ok K ⟨store, passphrase, salt, drawn.nonce⟩ sealed).mp hseal
  exact ⟨hgoes.length_le hK, store, hgoes.open_eq_ok hK rfl, hhead, hentries⟩

/-- Inserting succeeds while there is room. -/
theorem foldlM_insert_succeeds {items : List (EpochNumber × RecipientSecret)} {store : EpochStore}
    (hascending : (store.entries ++ items).Pairwise fun a b => a.1 < b.1)
    (h : (store.entries ++ items).length ≤ Store.maxEntries) :
    ∃ final, items.foldlM (fun store item => store.insert item.1 item.2) store = .ok final := by
  induction items generalizing store with
  | nil => exact ⟨store, rfl⟩
  | cons item items ih =>
    have hroom : ¬((store.get item.1).isNone = true ∧ store.entries.length ≥ Store.maxEntries) := by
      rw [List.length_append, List.length_cons] at h
      omega
    have hinsert : ∃ next, store.insert item.1 item.2 = .ok next := by
      unfold EpochStore.insert
      rw [failIf_neg _ hroom, ok_bind, recipientSecret_fromBytes]
      exact ⟨_, rfl⟩
    obtain ⟨next, hinsert⟩ := hinsert
    have hnext := (insert_next hascending hinsert).2
    obtain ⟨final, hfinal⟩ := ih (hnext ▸ hascending) (hnext ▸ h)
    exact ⟨final, by rw [List.foldlM_cons, hinsert, ok_bind, hfinal]⟩

/-- The system had randomness to draw from. -/
structure Drawn.Complete (drawn : Drawn) : Prop where
  secret : ∃ secret, drawn.secret = .ok secret
  salt : ∃ salt, drawn.salt = .ok salt
  nonce : ∀ i, ∃ nonce, drawn.nonce i = .ok nonce

/-- A chain with few enough secrets is sealed. -/
theorem sealChain_succeeds (hK : K.Seals) {chain : EpochChain} (hchain : chain.Coherent K.crypto)
    (hfew : chain.held.length ≤ Store.maxEntries)
    (hlong : minPassphraseLen ≤ (K.nfc passphrase).length) {drawn : Drawn}
    (hdrawn : drawn.Complete) : ∃ sealed, sealChain K passphrase chain drawn = .ok sealed := by
  obtain ⟨store, hstore⟩ := @foldlM_insert_succeeds chain.held (EpochStore.new chain.head)
    (EpochChain.held_ascending hchain) hfew
  have hentries := (storeOf_eq_ok hchain hstore).2
  obtain ⟨salt, hsalt⟩ := hdrawn.salt
  obtain ⟨s, hgoes⟩ := @SealRun.exists_goes K ⟨store, passphrase, salt, drawn.nonce⟩ hK hlong
    (by rw [hentries]; exact hfew) hdrawn.nonce
  have hseal := SealRun.result_eq_ok.mpr ⟨s, hgoes, rfl⟩
  unfold SealRun.result at hseal
  have hstore' : storeOf chain = .ok store := hstore
  unfold sealChain EpochStore.«seal»
  rw [hstore', mapErr_ok, ok_bind, hsalt, ok_bind, hseal, mapErr_ok]
  exact ⟨_, rfl⟩

/-! ## Loading -/

/-- What `load_epochs` makes of two files. -/
def loadFiles (K : Keyring.Primitives) (passphrase chainPath storePath : String) (files : Files) :
    Except CliError EpochChain := do
  let records ← readHistory K chainPath (files .history)
  joinStore K passphrase chainPath storePath records (files .store)

/-- The chain is the one of the history, with the secrets of the store. -/
structure Loaded (K : Keyring.Primitives) (passphrase : String) (files : Files)
    (chain : EpochChain) : Prop where
  coherent : chain.Coherent K.crypto
  nonempty : chain.records ≠ []
  history : ∃ file, files .history = some file ∧ decodeRecords file = .ok chain.records
  store : ∃ file store, files .store = some file ∧
    EpochStore.«open» K file passphrase = .ok store ∧
    ∀ number, number.toNat < chain.records.length →
      (EpochChain.Emptied chain number.toNat ↔ store.get number = none)

theorem readHistory_eq_ok {file : Option Bytes} {records : List EpochRecord}
    (h : readHistory K chainPath file = .ok records) :
    ∃ bytes, file = some bytes ∧ bytes.length ≤ maxLogFile ∧
      decodeRecords bytes = .ok records ∧ verify K.crypto.sha256 records = .ok () := by
  unfold readHistory at h
  simp only [bind_eq_ok, okOr_eq_ok, mapErr_eq_ok, pure_eq_ok] at h
  obtain ⟨bytes, hfile, bytes', hread, found, hdecode, _, hverify, rfl⟩ := h
  obtain ⟨rfl, hlen⟩ := readBounded_eq_ok hread
  exact ⟨_, hfile, hlen, hdecode, hverify⟩

theorem loaded_of_loadFiles {files : Files} {chain : EpochChain}
    (h : loadFiles K passphrase chainPath storePath files = .ok chain) :
    Loaded K passphrase files chain := by
  unfold loadFiles joinStore at h
  simp only [bind_eq_ok, okOr_eq_ok, mapErr_eq_ok] at h
  obtain ⟨records, hrecords, file, hfile, bytes, hread, store, hopen, -, -, hrestore⟩ := h
  obtain ⟨rfl, -⟩ := readBounded_eq_ok hread
  obtain ⟨hsame, hne, hrestoring⟩ := EpochChain.restore_eq_ok hrestore
  obtain ⟨history, hhistory, -, hdecode, -⟩ := readHistory_eq_ok hrecords
  have hcoherent : chain.Coherent K.crypto := by
    have hrestored := hrestoring.coherent
    rw [← hsame] at hrestored
    exact hrestored
  refine ⟨hcoherent, hsame ▸ hne, ⟨history, hhistory, hsame ▸ hdecode⟩,
    ⟨_, store, hfile, hopen, ?_⟩⟩
  intro number hnumber
  have hlt : number.toNat < chain.secrets.length := hcoherent.length ▸ hnumber
  have hslot := List.getElem?_eq_getElem hlt
  have hfull := hrestoring.full _ _ hslot
  rw [UInt64.ofNat_toNat] at hfull
  have hempty : EpochChain.Emptied chain number.toNat ↔
      ¬chain.secrets[number.toNat].secret.isSome = true := by
    simp [EpochChain.Emptied, hslot]
  rw [hempty, hfull]
  simp only [Option.eq_none_iff_forall_ne_some, ne_eq, EpochStore.get_eq_some_iff, List.mem_map,
    Prod.exists, exists_and_right, exists_eq_right, not_exists]

theorem length_of_loadFiles {files : Files} {chain : EpochChain}
    (h : loadFiles K passphrase chainPath storePath files = .ok chain) :
    ∃ bytes, files .history = some bytes ∧ bytes.length ≤ maxLogFile := by
  obtain ⟨records, hrecords, -⟩ := bind_eq_ok.mp h
  obtain ⟨bytes, hbytes, hlen, -⟩ := readHistory_eq_ok hrecords
  exact ⟨bytes, hbytes, hlen⟩

/-- The two files of a chain load to it, as long as the history is not too large to be read. -/
theorem loadFiles_of_chain (hK : K.Seals) {chain : EpochChain} (hchain : chain.Coherent K.crypto)
    (hne : chain.records ≠ []) {drawn : Drawn} {sealed : Bytes}
    (hsealed : sealChain K passphrase chain drawn = .ok sealed) {files : Files}
    (hstore : files .store = some sealed)
    (hhistory : files .history = some (encodeRecords chain.records)) :
    loadFiles K passphrase chainPath storePath files = .ok chain ↔
      (encodeRecords chain.records).length ≤ maxLogFile := by
  constructor
  · intro hload
    obtain ⟨bytes, hbytes, hlen⟩ := length_of_loadFiles hload
    rw [hhistory] at hbytes
    rwa [Option.some.inj hbytes]
  · intro hlen
    obtain ⟨hsmall, store, hopen, hhead, hentries⟩ := sealChain_opens hK hchain hsealed
    have hsame : store.chainHead = chainHead chain.records := hhead
    unfold loadFiles readHistory joinStore
    rw [hhistory, hstore, okOr_some, ok_bind, readBounded_of_le hlen, ok_bind,
      decodeRecords_of_verify hchain.verified, mapErr_ok, ok_bind, hchain.verified, mapErr_ok,
      ok_bind, okOr_some]
    rw [pure_bind, ok_bind, readBounded_of_le hsmall, ok_bind, hopen, mapErr_ok, ok_bind]
    simp only []
    rw [failIf_neg _ (not_not.mpr hsame), ok_bind, hentries, EpochChain.restore_held hchain hne]
    rfl

/-! ## What the files have to be -/

/-- The history file names these epochs. -/
def Published (files : Files) (records : List EpochRecord) : Prop :=
  ∃ file, files .history = some file ∧ decodeRecords file = .ok records

/-- The store file holds a secret for an epoch, and its public key is this one. -/
def HoldsSecret (K : Keyring.Primitives) (passphrase : String) (files : Files)
    (number : EpochNumber) (publicKey : Bytes) : Prop :=
  ∃ file store secret, files .store = some file ∧
    EpochStore.«open» K file passphrase = .ok store ∧ store.get number = some secret ∧
    EpochChain.publicKeyBytes K.crypto secret = publicKey

/-- Every published epoch that is not among the erased ones has its secret in the store. -/
def Kept (K : Keyring.Primitives) (passphrase : String) (files : Files)
    (erased : List EpochNumber) : Prop :=
  ∀ records i record, Published files records → records[i]? = some record →
    UInt64.ofNat i ∉ erased → HoldsSecret K passphrase files (UInt64.ofNat i) record.publicKey

/-- The files after any run: the history is a chain that verifies, its secrets are kept, its last
epoch is not erased, and what was erased is not in the store. -/
structure Safe (K : Keyring.Primitives) (passphrase : String) (files : Files)
    (erased : List EpochNumber) : Prop where
  valid : ∀ file, files .history = some file → ∃ records, decodeRecords file = .ok records ∧
    verify K.crypto.sha256 records = .ok () ∧ records ≠ []
  kept : Kept K passphrase files erased
  current : ∀ records, Published files records → ∀ number ∈ erased,
    number.toNat + 1 < records.length
  gone : ∀ number ∈ erased, ∀ file store, files .store = some file →
    EpochStore.«open» K file passphrase = .ok store → store.get number = none
  unpublished : files .history = none → erased = []

/-- A sealed chain has the secrets of its full slots. -/
theorem holdsSecret_of_slot (hK : K.Seals) {chain : EpochChain} (hchain : chain.Coherent K.crypto)
    {drawn : Drawn} {sealed : Bytes} (hsealed : sealChain K passphrase chain drawn = .ok sealed)
    {files : Files} (hfile : files .store = some sealed) {i : ℕ} {record : EpochRecord}
    (hrecord : chain.records[i]? = some record) (hfull : ¬EpochChain.Emptied chain i) :
    HoldsSecret K passphrase files (UInt64.ofNat i) record.publicKey := by
  obtain ⟨-, store, hopen, -, hentries⟩ := sealChain_opens hK hchain hsealed
  have hlt : i < chain.secrets.length := by
    rw [hchain.length]
    exact (List.getElem?_eq_some_iff.mp hrecord).1
  have hslot := List.getElem?_eq_getElem hlt
  cases hsecret : chain.secrets[i].secret with
  | none => exact absurd ⟨_, hslot, hsecret⟩ hfull
  | some secret =>
    refine ⟨sealed, store, secret, hfile, hopen, ?_, ?_⟩
    · rw [EpochStore.get_eq_some_iff, hentries, EpochChain.mem_held hchain, hchain.toNat_ofNat hlt]
      exact ⟨_, hslot, hsecret⟩
    · exact hchain.matching i _ secret record hslot hsecret hrecord

/-- A sealed chain has nothing for its empty slots. -/
theorem get_of_emptied (hK : K.Seals) {chain : EpochChain} (hchain : chain.Coherent K.crypto)
    {drawn : Drawn} {sealed : Bytes} (hsealed : sealChain K passphrase chain drawn = .ok sealed)
    {store : EpochStore} (hopen : EpochStore.«open» K sealed passphrase = .ok store)
    {number : EpochNumber} (hempty : EpochChain.Emptied chain number.toNat) :
    store.get number = none := by
  obtain ⟨-, store', hopen', -, hentries⟩ := sealChain_opens hK hchain hsealed
  obtain rfl : store = store' := Except.ok.inj (hopen.symm.trans hopen')
  rw [Option.eq_none_iff_forall_ne_some]
  intro secret hget
  rw [EpochStore.get_eq_some_iff, hentries, EpochChain.mem_held hchain] at hget
  obtain ⟨slot, hslot, hsecret⟩ := hget
  obtain ⟨slot', hslot', hnone⟩ := hempty
  rw [hslot] at hslot'
  rw [Option.some.inj hslot', hnone] at hsecret
  cases hsecret

theorem Published.unique {files : Files} {records other : List EpochRecord}
    (h : Published files records) (hother : Published files other) : other = records := by
  obtain ⟨file, hfile, hdecode⟩ := h
  obtain ⟨file', hfile', hdecode'⟩ := hother
  rw [hfile] at hfile'
  rw [← Option.some.inj hfile', hdecode] at hdecode'
  exact (Except.ok.inj hdecode').symm

section
variable {chain : EpochChain} {drawn : Drawn} {sealed : Bytes} {files : Files}
  {records : List EpochRecord} {erased : List EpochNumber}

/-- The secrets are kept when the store is that of a chain of which the history names an initial
part. -/
theorem kept_of_chain (hK : K.Seals) (hchain : chain.Coherent K.crypto)
    (hsealed : sealChain K passphrase chain drawn = .ok sealed) (hfile : files .store = some sealed)
    (hinitial : records <+: chain.records) (hhistory : Published files records)
    (hfull : ∀ i < records.length, UInt64.ofNat i ∉ erased → ¬EpochChain.Emptied chain i) :
    Kept K passphrase files erased := by
  obtain ⟨rest, hrest⟩ := hinitial
  intro other i record hother hrecord hnot
  rw [hhistory.unique hother] at hrecord
  have hlt := (List.getElem?_eq_some_iff.mp hrecord).1
  have hin : chain.records[i]? = some record := by
    rw [← hrest, List.getElem?_append_left hlt]
    exact hrecord
  exact holdsSecret_of_slot hK hchain hsealed hfile hin (hfull i hlt hnot)

/-- The files are safe when, besides, what was erased has no slot left. -/
theorem safe_of_chain (hK : K.Seals) (hchain : chain.Coherent K.crypto)
    (hsealed : sealChain K passphrase chain drawn = .ok sealed) (hfile : files .store = some sealed)
    (hinitial : records <+: chain.records) (hne : records ≠ [])
    (hverify : verify K.crypto.sha256 records = .ok ()) (hhistory : Published files records)
    (hfull : ∀ i < records.length, UInt64.ofNat i ∉ erased → ¬EpochChain.Emptied chain i)
    (hgone : ∀ number ∈ erased,
      EpochChain.Emptied chain number.toNat ∧ number.toNat + 1 < records.length) :
    Safe K passphrase files erased := by
  have hkept := kept_of_chain hK hchain hsealed hfile hinitial hhistory hfull
  have hpublished := hhistory
  obtain ⟨history, hhistory, hdecode⟩ := hhistory
  refine ⟨?_, hkept, ?_, ?_, ?_⟩
  · intro file hsame
    rw [hhistory] at hsame
    exact ⟨records, Option.some.inj hsame ▸ hdecode, hverify, hne⟩
  · intro other hother number hnumber
    rw [hpublished.unique hother]
    exact (hgone number hnumber).2
  · intro number hnumber file store hsame hopen
    rw [hfile] at hsame
    rw [← Option.some.inj hsame] at hopen
    exact get_of_emptied hK hchain hsealed hopen (hgone number hnumber).1
  · intro hnone
    rw [hhistory] at hnone
    cases hnone

end

/-! ## What each command does -/

/-- What `epoch_advance_with` writes to the store and to the history. -/
def advancePlan (K : Keyring.Primitives) (passphrase : String) (drawn : Drawn)
    (chain : EpochChain) : Except CliError (Bytes × Bytes) := do
  let _ ← mapErr .epoch (chain.advance K.crypto drawn.secret).1
  let sealed ← sealChain K passphrase (chain.advance K.crypto drawn.secret).2 drawn
  pure (sealed, encodeRecords (chain.advance K.crypto drawn.secret).2.records)

/-- What `epoch_erase_with` writes to the store. -/
def erasePlan (K : Keyring.Primitives) (passphrase : String) (number : EpochNumber) (drawn : Drawn)
    (chain : EpochChain) : Except CliError Bytes := do
  let _ ← mapErr .epoch (chain.publicKey 64 number)
  failIf (number = chain.current)
    (.message ("epoch " ++ toString number ++
      " is current and senders still encrypt to it; run `epoch-advance` first"))
  failIf (chain.isReadable 64 number = false)
    (.message ("epoch " ++ toString number ++ " was already erased"))
  mapErr .epoch (chain.erase 64 number).1
  sealChain K passphrase (chain.erase 64 number).2 drawn

/-- Loading reads both files, one after the other, before anything else happens. -/
theorem loadEpochs_bind {α : Type} (next : EpochChain → EpochProgram α) :
    loadEpochs K passphrase chainPath storePath >>= next =
      .read .history fun history =>
        .done (readHistory K chainPath history) >>= fun records =>
          .read .store fun store =>
            .done (joinStore K passphrase chainPath storePath records store) >>= next := by
  unfold loadEpochs
  simp only [Program.get_bind, Program.read_bind, Program.bind_assoc]

theorem epochAdvanceWith_eq (drawn : Drawn) :
    epochAdvanceWith K passphrase chainPath storePath drawn =
      loadEpochs K passphrase chainPath storePath >>= fun chain =>
        .done (advancePlan K passphrase drawn chain) >>= fun files =>
          .write .store files.1 (.write .history files.2 (.done (.ok ()))) := by
  unfold epochAdvanceWith
  congr 1
  funext chain
  unfold advancePlan
  simp only [← Program.done_bind_done]
  rfl

theorem epochEraseWith_eq (number : EpochNumber) (drawn : Drawn) :
    epochEraseWith K passphrase chainPath storePath number drawn =
      loadEpochs K passphrase chainPath storePath >>= fun chain =>
        .done (erasePlan K passphrase number drawn chain) >>= fun sealed =>
          .write .store sealed (.done (.ok ())) := by
  unfold epochEraseWith
  congr 1
  funext chain
  unfold erasePlan
  simp only [← Program.done_bind_done]
  rfl

/-! ## Whole runs of the commands -/

/-- A run is refused and writes nothing. -/
def Refused (program : EpochProgram Unit) (files : Files) : Prop :=
  (∃ e, program.result files = .error e) ∧ program.writes files = []

/-- A run succeeds with these writes. -/
def Writes (program : EpochProgram Unit) (files : Files) (writes : List (EpochFile × Bytes)) :
    Prop :=
  program.result files = .ok () ∧ program.writes files = writes

theorem refused_done (e : CliError) (files : Files) : Refused (.done (.error e)) files :=
  ⟨⟨e, rfl⟩, rfl⟩

/-- A command that starts by loading goes on with what was loaded. -/
theorem run_loaded (next : EpochChain → EpochProgram Unit) {files : Files} {chain : EpochChain}
    (h : loadFiles K passphrase chainPath storePath files = .ok chain) :
    (loadEpochs K passphrase chainPath storePath >>= next).result files =
        (next chain).result files ∧
      (loadEpochs K passphrase chainPath storePath >>= next).writes files =
        (next chain).writes files := by
  obtain ⟨records, hrecords, hjoin⟩ := bind_eq_ok.mp h
  rw [loadEpochs_bind]
  simp only [Program.writes_read, Program.result_read, hrecords, Program.done_ok_bind, hjoin]
  exact ⟨trivial, trivial⟩

/-- A command that starts by loading is refused when the files do not load. -/
theorem refused_loading (next : EpochChain → EpochProgram Unit) {files : Files} {e : CliError}
    (h : loadFiles K passphrase chainPath storePath files = .error e) :
    Refused (loadEpochs K passphrase chainPath storePath >>= next) files := by
  rw [loadEpochs_bind]
  unfold loadFiles at h
  unfold Refused
  simp only [Program.writes_read, Program.result_read]
  cases hrecords : readHistory K chainPath (files .history) with
  | error e' => exact refused_done e' files
  | ok records =>
    rw [hrecords, ok_bind] at h
    simp only [Program.done_ok_bind, Program.writes_read, Program.result_read, h]
    exact refused_done e files

/-- Advancing files that load, by a plan that is made. -/
theorem advance_writes {drawn : Drawn} {files : Files} {chain : EpochChain} {plan : Bytes × Bytes}
    (hload : loadFiles K passphrase chainPath storePath files = .ok chain)
    (hplan : advancePlan K passphrase drawn chain = .ok plan) :
    Writes (epochAdvanceWith K passphrase chainPath storePath drawn) files
      [(.store, plan.1), (.history, plan.2)] := by
  unfold Writes
  rw [epochAdvanceWith_eq, (run_loaded _ hload).1, (run_loaded _ hload).2, hplan]
  exact ⟨rfl, rfl⟩

theorem run_advance (drawn : Drawn) (files : Files) :
    Refused (epochAdvanceWith K passphrase chainPath storePath drawn) files ∨
    ∃ chain plan, loadFiles K passphrase chainPath storePath files = .ok chain ∧
      advancePlan K passphrase drawn chain = .ok plan ∧
      Writes (epochAdvanceWith K passphrase chainPath storePath drawn) files
        [(.store, plan.1), (.history, plan.2)] := by
  cases hload : loadFiles K passphrase chainPath storePath files with
  | error e =>
    left
    rw [epochAdvanceWith_eq]
    exact refused_loading _ hload
  | ok chain =>
    cases hplan : advancePlan K passphrase drawn chain with
    | error e =>
      left
      unfold Refused
      rw [epochAdvanceWith_eq, (run_loaded _ hload).1, (run_loaded _ hload).2, hplan]
      exact refused_done e files
    | ok plan => exact .inr ⟨chain, plan, rfl, hplan, advance_writes hload hplan⟩

theorem erase_writes {number : EpochNumber} {drawn : Drawn} {files : Files} {chain : EpochChain}
    {sealed : Bytes} (hload : loadFiles K passphrase chainPath storePath files = .ok chain)
    (hplan : erasePlan K passphrase number drawn chain = .ok sealed) :
    Writes (epochEraseWith K passphrase chainPath storePath number drawn) files
      [(.store, sealed)] := by
  unfold Writes
  rw [epochEraseWith_eq, (run_loaded _ hload).1, (run_loaded _ hload).2, hplan]
  exact ⟨rfl, rfl⟩

theorem run_erase (number : EpochNumber) (drawn : Drawn) (files : Files) :
    Refused (epochEraseWith K passphrase chainPath storePath number drawn) files ∨
    ∃ chain sealed, loadFiles K passphrase chainPath storePath files = .ok chain ∧
      erasePlan K passphrase number drawn chain = .ok sealed ∧
      Writes (epochEraseWith K passphrase chainPath storePath number drawn) files
        [(.store, sealed)] := by
  cases hload : loadFiles K passphrase chainPath storePath files with
  | error e =>
    left
    rw [epochEraseWith_eq]
    exact refused_loading _ hload
  | ok chain =>
    cases hplan : erasePlan K passphrase number drawn chain with
    | error e =>
      left
      unfold Refused
      rw [epochEraseWith_eq, (run_loaded _ hload).1, (run_loaded _ hload).2, hplan]
      exact refused_done e files
    | ok sealed => exact .inr ⟨chain, sealed, rfl, hplan, erase_writes hload hplan⟩

theorem run_init (drawn : Drawn) (files : Files) :
    Refused (epochInitWith K passphrase drawn) files ∨
    ∃ chain sealed, files .history = none ∧ files .store = none ∧
      EpochChain.new K.crypto drawn.secret = .ok chain ∧
      sealChain K passphrase chain drawn = .ok sealed ∧
      Writes (epochInitWith K passphrase drawn) files
        [(.store, sealed), (.history, encodeRecords chain.records)] := by
  unfold epochInitWith newOutput Refused Writes
  simp only [Program.read_bind, Program.get_bind, Program.writes_read, Program.result_read]
  cases hhistory : files .history with
  | some file => exact .inl (refused_done _ files)
  | none =>
    rw [failIf_neg _ (by decide)]
    simp only [Program.done_ok_bind, Program.writes_read, Program.result_read]
    cases hstore : files .store with
    | some file => exact .inl (refused_done _ files)
    | none =>
      rw [failIf_neg _ (by decide)]
      simp only [Program.done_ok_bind]
      cases EpochChain.new K.crypto drawn.secret with
      | error e => exact .inl (refused_done _ files)
      | ok chain =>
        simp only [mapErr_ok, Program.done_ok_bind]
        cases hsealed : sealChain K passphrase chain drawn with
        | error e => exact .inl (refused_done _ files)
        | ok sealed =>
          right
          have hlater : Function.update files EpochFile.store (some sealed) .history = none :=
            hhistory
          refine ⟨chain, sealed, trivial, trivial, rfl, hsealed, ?_⟩
          unfold commitOutput
          simp only [Program.done_ok_bind, Program.create_bind, Program.writes_create hstore,
            Program.result_create hstore]
          rw [failIf_neg _ (by decide)]
          simp only [Program.done_ok_bind, Program.writes_create hlater,
            Program.result_create hlater]
          rw [failIf_neg _ (by decide)]
          exact ⟨rfl, rfl⟩

/-! ## One command keeps the files safe -/

theorem Loaded.published {files : Files} {chain : EpochChain}
    (h : Loaded K passphrase files chain) : Published files chain.records := h.history

/-- What is kept in the files is in the slots of the chain. -/
theorem Loaded.full {files : Files} {chain : EpochChain} (h : Loaded K passphrase files chain)
    {erased : List EpochNumber} (hkept : Kept K passphrase files erased) {i : ℕ}
    (hi : i < chain.records.length) (hnot : UInt64.ofNat i ∉ erased) :
    ¬EpochChain.Emptied chain i := by
  obtain ⟨file, store, hfile, hopen, hslots⟩ := h.store
  obtain ⟨file', store', secret, hfile', hopen', hget, -⟩ :=
    hkept _ i _ h.published (List.getElem?_eq_getElem hi) hnot
  rw [hfile] at hfile'
  rw [← Option.some.inj hfile', hopen] at hopen'
  have hnat := h.coherent.toNat_ofNat (h.coherent.length ▸ hi)
  have hslot := hslots (UInt64.ofNat i) (by rw [hnat]; exact hi)
  rw [hnat] at hslot
  rw [hslot, Except.ok.inj hopen', hget]
  intro hcontra
  cases hcontra

theorem Loaded.emptied {files : Files} {chain : EpochChain} (h : Loaded K passphrase files chain)
    {erased : List EpochNumber} (hsafe : Safe K passphrase files erased) {number : EpochNumber}
    (hnumber : number ∈ erased) :
    EpochChain.Emptied chain number.toNat ∧ number.toNat + 1 < chain.records.length := by
  obtain ⟨file, store, hfile, hopen, hslots⟩ := h.store
  have hlt := hsafe.current _ h.published number hnumber
  refine ⟨?_, hlt⟩
  rw [hslots number (by omega)]
  exact hsafe.gone number hnumber file store hfile hopen

/-- A plan to advance adds a record and a full slot for the secret that was drawn. -/
theorem advancePlan_eq_ok {drawn : Drawn} {chain : EpochChain} {plan : Bytes × Bytes}
    (h : advancePlan K passphrase drawn chain = .ok plan) :
    (∃ secret record, drawn.secret = .ok secret ∧
      (chain.advance K.crypto drawn.secret).2.records = chain.records ++ [record] ∧
      record.publicKey = EpochChain.publicKeyBytes K.crypto secret ∧
      (chain.advance K.crypto drawn.secret).2.secrets =
        chain.secrets ++ [⟨UInt64.ofNat chain.records.length, some secret⟩]) ∧
      sealChain K passphrase (chain.advance K.crypto drawn.secret).2 drawn = .ok plan.1 ∧
      plan.2 = encodeRecords (chain.advance K.crypto drawn.secret).2.records := by
  unfold advancePlan at h
  simp only [bind_eq_ok, mapErr_eq_ok, pure_eq_ok] at h
  obtain ⟨number, hnumber, sealed, hsealed, rfl⟩ := h
  refine ⟨?_, hsealed, rfl⟩
  rcases EpochChain.advance_cases (P := K.crypto) chain drawn.secret with
    ⟨e, heq⟩ | ⟨secret, hsecret, -, heq⟩
  · rw [heq] at hnumber
    cases hnumber
  · rw [heq]
    exact ⟨secret, _, hsecret, rfl, rfl, rfl⟩

/-- A chain with room for one more epoch is advanced. -/
theorem advancePlan_succeeds (hK : K.Seals) {chain : EpochChain} (hchain : chain.Coherent K.crypto)
    (hlen : chain.records.length < maxChainEntries)
    (hfew : chain.held.length < Store.maxEntries)
    (hlong : minPassphraseLen ≤ (K.nfc passphrase).length) {drawn : Drawn}
    (hdrawn : drawn.Complete) : ∃ plan, advancePlan K passphrase drawn chain = .ok plan := by
  obtain ⟨secret, hsecret⟩ := hdrawn.secret
  have hadvanced := hchain.advance drawn.secret
  obtain ⟨hresult, -, hheld⟩ := @EpochChain.advance_ok K.crypto chain hlen secret
  rw [← hsecret] at hresult hheld
  obtain ⟨sealed, hsealed⟩ := sealChain_succeeds hK hadvanced (by omega) hlong hdrawn
  unfold advancePlan
  rw [hresult, mapErr_ok, ok_bind, hsealed]
  exact ⟨_, rfl⟩

theorem erasePlan_eq_ok {number : EpochNumber} {drawn : Drawn} {chain : EpochChain}
    {sealed : Bytes} (h : erasePlan K passphrase number drawn chain = .ok sealed) :
    number.toNat + 1 < chain.records.length ∧
      sealChain K passphrase (chain.erase 64 number).2 drawn = .ok sealed := by
  unfold erasePlan at h
  simp only [bind_eq_ok, mapErr_eq_ok, failIf_eq_ok] at h
  obtain ⟨publicKey, hkey, -, hcurrent, -, -, -, -, hsealed⟩ := h
  refine ⟨?_, hsealed⟩
  unfold EpochChain.publicKey at hkey
  rw [asUsize_64, okOr_eq_ok] at hkey
  obtain ⟨record, hrecord, -⟩ := Option.map_eq_some_iff.mp hkey
  have hlt := (List.getElem?_eq_some_iff.mp hrecord).1
  -- the number is in range, and it is not the last one
  have hne : number.toNat ≠ chain.records.length - 1 := by
    intro hlast
    apply hcurrent
    rw [EpochChain.current, ← hlast, UInt64.ofNat_toNat]
  omega

/-- A readable epoch that is not the last one is erased. -/
theorem erasePlan_succeeds (hK : K.Seals) {chain : EpochChain} (hchain : chain.Coherent K.crypto)
    {number : EpochNumber} (hnumber : number.toNat + 1 < chain.records.length)
    (hreadable : chain.isReadable 64 number = true)
    (hfew : (chain.erase 64 number).2.held.length ≤ Store.maxEntries)
    (hlong : minPassphraseLen ≤ (K.nfc passphrase).length) {drawn : Drawn}
    (hdrawn : drawn.Complete) :
    ∃ sealed, erasePlan K passphrase number drawn chain = .ok sealed := by
  have hrecord : number.toNat < chain.records.length := by omega
  have hkey : chain.publicKey 64 number = .ok (chain.records[number.toNat]).publicKey := by
    unfold EpochChain.publicKey
    rw [asUsize_64, List.getElem?_eq_getElem hrecord]
    rfl
  have hcurrent : number ≠ chain.current := by
    intro heq
    have hlast : chain.records.length - 1 < chain.secrets.length := by
      rw [hchain.length]
      omega
    rw [heq, EpochChain.current, hchain.toNat_ofNat hlast] at hnumber
    omega
  have herase : (chain.erase 64 number).1 = .ok () := by
    rcases EpochChain.erase_cases chain number with ⟨hnone, -⟩ | ⟨held, -, heq⟩
    · have hlen := List.getElem?_eq_none_iff.mp hnone
      rw [hchain.length] at hlen
      omega
    · rw [heq]
  obtain ⟨sealed, hsealed⟩ := sealChain_succeeds hK (hchain.erase number) hfew hlong hdrawn
  unfold erasePlan
  rw [hkey, failIf_neg _ hcurrent, failIf_neg _ (by rw [hreadable]; decide), herase, hsealed]
  exact ⟨sealed, rfl⟩

section
variable {files : Files} {erased : List EpochNumber} {chain : EpochChain} {drawn : Drawn}

/-- The chain after `advance` has every secret that the files kept, and the new one. -/
theorem advance_full (hkept : Kept K passphrase files erased)
    (hload : Loaded K passphrase files chain) {i : ℕ} (hnot : UInt64.ofNat i ∉ erased) :
    ¬EpochChain.Emptied (chain.advance K.crypto drawn.secret).2 i := by
  intro hempty
  have hbefore := hempty.of_advance
  have hslots := hbefore
  obtain ⟨slot, hslot, -⟩ := hslots
  have hin := (List.getElem?_eq_some_iff.mp hslot).1
  rw [hload.coherent.length] at hin
  exact hload.full hkept hin hnot hbefore

/-- The chain after `erase` has every secret that the files kept, but the erased one. -/
theorem erase_full (hkept : Kept K passphrase files erased)
    (hload : Loaded K passphrase files chain) {number : EpochNumber}
    (hnumber : number.toNat < chain.secrets.length) {i : ℕ} (hi : i < chain.records.length)
    (hnot : UInt64.ofNat i ∉ number :: erased) :
    ¬EpochChain.Emptied (chain.erase 64 number).2 i := by
  intro hempty
  rw [List.mem_cons, not_or] at hnot
  rcases (EpochChain.emptied_erase_iff hnumber).mp hempty with heq | hempty
  · apply hnot.1
    rw [heq, UInt64.ofNat_toNat]
  · exact hload.full hkept hi hnot.2 hempty

/-- Neither the store of `advance` nor its history afterwards loses a secret. -/
theorem advance_safe (hK : K.Seals) (hsafe : Safe K passphrase files erased)
    (hload : Loaded K passphrase files chain) {plan : Bytes × Bytes}
    (hplan : advancePlan K passphrase drawn chain = .ok plan) :
    Safe K passphrase (Function.update files .store (some plan.1)) erased ∧
      Safe K passphrase
        (Function.update (Function.update files .store (some plan.1)) .history (some plan.2))
        erased := by
  obtain ⟨⟨-, record, -, hrecords, -⟩, hsealed, hhistory⟩ := advancePlan_eq_ok hplan
  have hchain := hload.coherent.advance drawn.secret
  constructor
  · refine safe_of_chain hK hchain hsealed rfl (hrecords ▸ List.prefix_append _ _) hload.nonempty
      hload.coherent.verified hload.published (fun i _ => advance_full hsafe.kept hload) ?_
    intro number hnumber
    obtain ⟨hempty, hlt⟩ := hload.emptied hsafe hnumber
    exact ⟨hempty.advance drawn.secret, hlt⟩
  · refine safe_of_chain hK hchain hsealed rfl List.prefix_rfl (by simp [hrecords]) hchain.verified
      ⟨plan.2, rfl, hhistory ▸ decodeRecords_of_verify hchain.verified⟩
      (fun i _ => advance_full hsafe.kept hload) ?_
    intro number hnumber
    obtain ⟨hempty, hlt⟩ := hload.emptied hsafe hnumber
    refine ⟨hempty.advance drawn.secret, ?_⟩
    rw [hrecords, List.length_append]
    omega

theorem erase_safe (hK : K.Seals) (hsafe : Safe K passphrase files erased)
    (hload : Loaded K passphrase files chain) {number : EpochNumber} {sealed : Bytes}
    (hplan : erasePlan K passphrase number drawn chain = .ok sealed) :
    Safe K passphrase (Function.update files .store (some sealed)) (number :: erased) := by
  obtain ⟨hnumber, hsealed⟩ := erasePlan_eq_ok hplan
  have hchain := hload.coherent.erase number
  have hrecords : (chain.erase 64 number).2.records = chain.records :=
    (EpochChain.erase_frame chain number).1
  have hlen := hload.coherent.length
  have hin : number.toNat < chain.secrets.length := by omega
  refine safe_of_chain hK hchain hsealed rfl (hrecords ▸ List.prefix_rfl) hload.nonempty
    hload.coherent.verified hload.published (fun i hi => erase_full hsafe.kept hload hin hi) ?_
  intro other hother
  rw [EpochChain.emptied_erase_iff hin]
  rcases List.mem_cons.mp hother with rfl | hother
  · exact ⟨.inl rfl, hnumber⟩
  · obtain ⟨hempty, hlt⟩ := hload.emptied hsafe hother
    exact ⟨.inr hempty, hlt⟩

/-- A new chain is published after its store. -/
theorem init_safe (hK : K.Seals) (hsafe : Safe K passphrase files erased)
    (hfree : files .history = none) (hnew : EpochChain.new K.crypto drawn.secret = .ok chain)
    {sealed : Bytes} (hsealed : sealChain K passphrase chain drawn = .ok sealed) :
    Safe K passphrase (Function.update files .store (some sealed)) erased ∧
      Safe K passphrase (Function.update (Function.update files .store (some sealed)) .history
        (some (encodeRecords chain.records))) erased := by
  have herased := hsafe.unpublished hfree
  subst herased
  have hchain : chain.Coherent K.crypto := EpochChain.Started.coherent (.inl ⟨_, hnew⟩)
  constructor
  · have hnone : Function.update files EpochFile.store (some sealed) .history = none := hfree
    refine ⟨?_, ?_, ?_, by simp, fun _ => rfl⟩
    · intro file hfile
      rw [hnone] at hfile
      cases hfile
    · intro records i record hpublished
      obtain ⟨file, hfile, -⟩ := hpublished
      rw [hnone] at hfile
      cases hfile
    · simp
  · obtain ⟨hfirst, hne⟩ := EpochChain.new_eq_ok hnew
    refine safe_of_chain hK hchain hsealed rfl List.prefix_rfl hne hchain.verified
      ⟨_, rfl, decodeRecords_of_verify hchain.verified⟩ ?_ (by simp)
    intro i hi hnot hempty
    rw [hfirst] at hempty
    obtain ⟨slot, hslot, -⟩ := hempty.of_advance
    cases hslot

end

/-! ## Every run keeps them safe -/

theorem not_refused_and_writes {program : EpochProgram Unit} {files : Files}
    {writes : List (EpochFile × Bytes)} (hrefused : Refused program files)
    (hwrites : Writes program files writes) : False := by
  obtain ⟨⟨e, herror⟩, -⟩ := hrefused
  rw [hwrites.1] at herror
  cases herror

theorem Writes.unique {program : EpochProgram Unit} {files : Files}
    {writes other : List (EpochFile × Bytes)} (h : Writes program files writes)
    (hother : Writes program files other) : writes = other := h.2.symm.trans hother.2

/-- Every command is refused, or makes its writes. -/
theorem refused_or_writes (command : EpochCommand) (files : Files) :
    Refused (command.program K passphrase chainPath storePath) files ∨
      ∃ writes, Writes (command.program K passphrase chainPath storePath) files writes := by
  cases command with
  | init drawn =>
    rcases @run_init K passphrase drawn files with h | ⟨chain, sealed, -, -, -, -, h⟩
    · exact .inl h
    · exact .inr ⟨_, h⟩
  | advance drawn =>
    rcases @run_advance K passphrase chainPath storePath drawn files with
      h | ⟨chain, plan, -, -, h⟩
    · exact .inl h
    · exact .inr ⟨_, h⟩
  | erase number drawn =>
    rcases @run_erase K passphrase chainPath storePath number drawn files with
      h | ⟨chain, sealed, -, -, h⟩
    · exact .inl h
    · exact .inr ⟨_, h⟩

theorem prefix_pair {α : Type} {x y : α} {kept : List α} (h : kept <+: [x, y]) (hne : kept ≠ []) :
    kept = [x] ∨ kept = [x, y] := by
  rcases List.prefix_cons_iff.mp h with rfl | ⟨rest, rfl, hrest⟩
  · exact absurd rfl hne
  · rcases List.prefix_cons_iff.mp hrest with rfl | ⟨last, rfl, hlast⟩
    · exact .inl rfl
    · rw [List.prefix_nil.mp hlast]
      exact .inr rfl

/-- The files are safe after every initial part of what a command writes. -/
theorem writes_safe (hK : K.Seals) {files : Files} {erased : List EpochNumber}
    (hsafe : Safe K passphrase files erased) {command : EpochCommand}
    {writes kept : List (EpochFile × Bytes)}
    (h : Writes (command.program K passphrase chainPath storePath) files writes)
    (hkept : kept <+: writes) (hne : kept ≠ []) :
    Safe K passphrase (files.after kept) (command.erases ++ erased) := by
  cases command with
  | init drawn =>
    rcases run_init drawn files with hrefused | ⟨chain, sealed, hfree, -, hnew, hsealed, h'⟩
    · exact (not_refused_and_writes hrefused h).elim
    · obtain ⟨hstore, hboth⟩ := init_safe hK hsafe hfree hnew hsealed
      rw [h.unique h'] at hkept
      rcases prefix_pair hkept hne with rfl | rfl
      · exact hstore
      · exact hboth
  | advance drawn =>
    rcases run_advance drawn files with hrefused | ⟨chain, plan, hload, hplan, h'⟩
    · exact (not_refused_and_writes hrefused h).elim
    · obtain ⟨hstore, hboth⟩ := advance_safe hK hsafe (loaded_of_loadFiles hload) hplan
      rw [h.unique h'] at hkept
      rcases prefix_pair hkept hne with rfl | rfl
      · exact hstore
      · exact hboth
  | erase number drawn =>
    rcases run_erase number drawn files with hrefused | ⟨chain, sealed, hload, hplan, h'⟩
    · exact (not_refused_and_writes hrefused h).elim
    · rw [h.unique h'] at hkept
      rcases List.prefix_cons_iff.mp hkept with rfl | ⟨rest, rfl, hrest⟩
      · exact absurd rfl hne
      · rw [List.prefix_nil.mp hrest]
        exact erase_safe hK hsafe (loaded_of_loadFiles hload) hplan

section
variable {world : EpochWorld}

/-- One run, complete or not, keeps the files safe. -/
theorem run_safe (hK : K.Seals) (hsafe : Safe K passphrase world.files world.erased)
    (command : EpochCommand) (limit : ℕ) :
    Safe K passphrase (world.run K passphrase chainPath storePath command limit).files
      (world.run K passphrase chainPath storePath command limit).erased := by
  simp only [EpochWorld.run, Program.stop]
  rcases @refused_or_writes K passphrase chainPath storePath command world.files with
    hrefused | ⟨writes, hwrites⟩
  · rw [hrefused.2, List.take_nil]
    exact hsafe
  · rw [hwrites.2]
    by_cases hne : writes.take limit = []
    · rw [hne]
      exact hsafe
    · rw [if_neg (by simpa using hne)]
      exact writes_safe hK hsafe hwrites (List.take_prefix _ _) hne

theorem runs_safe (hK : K.Seals) (hsafe : Safe K passphrase world.files world.erased)
    (commands : List (EpochCommand × ℕ)) :
    Safe K passphrase (world.runs K passphrase chainPath storePath commands).files
      (world.runs K passphrase chainPath storePath commands).erased := by
  induction commands generalizing world with
  | nil => exact hsafe
  | cons command commands ih => exact ih (run_safe hK hsafe command.1 command.2)

/-- What was erased stays on the list. -/
theorem erased_subset_runs (commands : List (EpochCommand × ℕ)) :
    world.erased ⊆ (world.runs K passphrase chainPath storePath commands).erased := by
  induction commands generalizing world with
  | nil => exact List.Subset.refl _
  | cons command commands ih =>
    refine List.Subset.trans ?_ ih
    simp only [EpochWorld.run]
    split
    · exact List.Subset.refl _
    · exact List.subset_append_right _ _

end

theorem fresh_safe : Safe K passphrase EpochWorld.fresh.files EpochWorld.fresh.erased := by
  refine ⟨?_, ?_, ?_, ?_, fun _ => rfl⟩
  · intro file hfile
    cases hfile
  · intro records i record hpublished
    obtain ⟨file, hfile, -⟩ := hpublished
    cases hfile
  · intro records hpublished
    obtain ⟨file, hfile, -⟩ := hpublished
    cases hfile
  · intro number hnumber
    cases hnumber

/-- Whatever commands are run, one at a time, and wherever they crash: the history is a chain that
verifies, every epoch in it that was not erased has its secret in the store, its last epoch is
never erased, an erased epoch is never in the store again, and a refused run changes no file. -/
theorem published_epochs_keep_their_secrets (K : Keyring.Primitives) (hK : K.Seals)
    (passphrase chainPath storePath : String) (commands : List (EpochCommand × ℕ)) :
    let world := EpochWorld.fresh.runs K passphrase chainPath storePath commands
    (∀ file, world.files .history = some file → ∃ records, decodeRecords file = .ok records ∧
      verify K.crypto.sha256 records = .ok () ∧ records ≠ []) ∧
    (∀ records i record, Published world.files records → records[i]? = some record →
      UInt64.ofNat i ∉ world.erased →
      HoldsSecret K passphrase world.files (UInt64.ofNat i) record.publicKey) ∧
    (∀ records, Published world.files records → ∀ number ∈ world.erased,
      number.toNat + 1 < records.length) ∧
    (∀ number ∈ world.erased, ∀ later file store,
      (world.runs K passphrase chainPath storePath later).files .store = some file →
      EpochStore.«open» K file passphrase = .ok store → store.get number = none) ∧
    ∀ (command : EpochCommand) (other : String) (e : CliError) (limit : ℕ),
      (command.program K other chainPath storePath).result world.files = .error e →
      world.run K other chainPath storePath command limit = world := by
  intro world
  have hsafe : Safe K passphrase world.files world.erased := runs_safe hK fresh_safe commands
  refine ⟨hsafe.valid, hsafe.kept, hsafe.current, ?_, ?_⟩
  · intro number hnumber later file store hfile hopen
    exact (runs_safe hK hsafe later).gone number (erased_subset_runs later hnumber) file store hfile
      hopen
  · intro command other e limit herror
    rcases @refused_or_writes K other chainPath storePath command world.files with
      hrefused | ⟨writes, hwrites⟩
    · simp only [EpochWorld.run, Program.stop]
      rw [hrefused.2, List.take_nil]
      rfl
    · rw [hwrites.1] at herror
      cases herror

/-! ## A sample run -/

def sampleDrawn : Drawn where
  secret := .ok ⟨Vector.replicate 32 7⟩
  salt := .ok (Vector.replicate saltLen 1)
  nonce _ := .ok (Vector.replicate nonceLen 2)

def sampleKeys : Keyring.Primitives := sampleKeyring Crypto.Primitives.toy.aeadOpen

theorem sampleKeys_seals : sampleKeys.Seals := sampleKeyring_seals

/-- Fresh randomness with a given secret. -/
def drawing (byte : UInt8) : Drawn := { sampleDrawn with secret := .ok ⟨Vector.replicate 32 byte⟩ }

theorem drawing_complete (byte : UInt8) : (drawing byte).Complete :=
  ⟨⟨_, rfl⟩, ⟨_, rfl⟩, fun _ => ⟨_, rfl⟩⟩

/-- The two files of a chain. -/
def chainFiles (chain : EpochChain) : Files
  | .history => some (encodeRecords chain.records)
  | .store => (sealChain sampleKeys "correct horse" chain (drawing 7)).toOption

theorem chainFiles_store {chain : EpochChain} (hchain : chain.Coherent sampleKeys.crypto)
    (hfew : chain.held.length ≤ Store.maxEntries) : ∃ sealed,
      sealChain sampleKeys "correct horse" chain (drawing 7) = .ok sealed ∧
        chainFiles chain .store = some sealed := by
  obtain ⟨sealed, hsealed⟩ := @sealChain_succeeds sampleKeys "correct horse" sampleKeys_seals chain
    hchain hfew (by decide) _ (drawing_complete 7)
  refine ⟨sealed, hsealed, ?_⟩
  show (sealChain sampleKeys "correct horse" chain (drawing 7)).toOption = _
  rw [hsealed]
  rfl

theorem chainFiles_load {chain : EpochChain} (hchain : chain.Coherent sampleKeys.crypto)
    (hne : chain.records ≠ []) (hfew : chain.held.length ≤ Store.maxEntries)
    (hfits : (encodeRecords chain.records).length ≤ maxLogFile) :
    loadFiles sampleKeys "correct horse" "history" "store" (chainFiles chain) = .ok chain := by
  obtain ⟨sealed, hsealed, hstore⟩ := chainFiles_store hchain hfew
  exact (loadFiles_of_chain sampleKeys_seals hchain hne hsealed hstore rfl).mpr hfits

/-- The files of a short chain. -/
structure Holds (files : Files) (chain : EpochChain) : Prop where
  coherent : chain.Coherent sampleKeys.crypto
  nonempty : chain.records ≠ []
  short : chain.records.length ≤ 3
  few : chain.held.length ≤ 3
  history : files .history = some (encodeRecords chain.records)
  store : ∃ drawn sealed, sealChain sampleKeys "correct horse" chain drawn = .ok sealed ∧
    files .store = some sealed

section Sample
variable {world : EpochWorld} {chain : EpochChain}

theorem Holds.load (h : Holds world.files chain) :
    loadFiles sampleKeys "correct horse" "history" "store" world.files = .ok chain := by
  obtain ⟨drawn, sealed, hsealed, hstore⟩ := h.store
  apply (loadFiles_of_chain sampleKeys_seals h.coherent h.nonempty hsealed hstore h.history).mpr
  have hhead := Cbor.headLen_le chain.records.length
  have hbody := recordsLen_le h.short
  have hthree : 9 + recordsLen 3 ≤ maxLogFile := by decide
  rw [length_encodeRecords h.coherent.verified]
  omega

/-- A run that completes, or crashes after some of its writes. -/
theorem run_of_writes {command : EpochCommand} {writes : List (EpochFile × Bytes)}
    (h : Writes (command.program K passphrase chainPath storePath) world.files writes) (limit : ℕ) :
    world.run K passphrase chainPath storePath command limit =
      { files := world.files.after (writes.take limit)
        erased := if (writes.take limit).isEmpty = true then world.erased
          else command.erases ++ world.erased } := by
  simp only [EpochWorld.run, Program.stop, h.2]

/-- The first epoch. -/
def firstChain : EpochChain := (EpochChain.advance sampleKeys.crypto ⟨[], []⟩ (drawing 7).secret).2

/-- A chain was created. -/
def createdWorld : EpochWorld :=
  EpochWorld.fresh.run sampleKeys "correct horse" "history" "store" (.init (drawing 7)) 2

theorem createdWorld_history : (createdWorld.files .history).isSome = true := by decide +kernel

theorem createdWorld_holds : Holds createdWorld.files firstChain ∧ createdWorld.erased = [] := by
  rcases @run_init sampleKeys "correct horse" (drawing 7) EpochWorld.fresh.files with
    hrefused | ⟨chain, sealed, -, -, hnew, hsealed, hwrites⟩
  · -- a refused run would have left no history
    have hsome := createdWorld_history
    rw [createdWorld, EpochWorld.run, Program.stop] at hsome
    simp only [EpochCommand.program, hrefused.2, List.take_nil] at hsome
    cases hsome
  · obtain ⟨rfl, hne⟩ := EpochChain.new_eq_ok hnew
    have hworld := @run_of_writes sampleKeys "correct horse" "history" "store" EpochWorld.fresh
      (.init (drawing 7)) _ hwrites 2
    rw [createdWorld, hworld]
    refine ⟨⟨EpochChain.Coherent.empty.advance _, hne, by decide, by decide, rfl, ?_⟩, rfl⟩
    exact ⟨drawing 7, sealed, hsealed, rfl⟩

/-- Advancing to the next epoch, to the end or up to a crash between the two files. -/
theorem Holds.advance (h : Holds world.files chain) (hroom : chain.records.length < 3)
    (hfew : chain.held.length < 3) (byte : UInt8) :
    let next := (chain.advance sampleKeys.crypto (drawing byte).secret).2
    let ended := world.run sampleKeys "correct horse" "history" "store" (.advance (drawing byte)) 2
    let crashed := world.run sampleKeys "correct horse" "history" "store" (.advance (drawing byte)) 1
    (Holds ended.files next ∧ ended.erased = world.erased) ∧
      crashed.files .history = world.files .history ∧ crashed.erased = world.erased ∧
      ∃ sealed, sealChain sampleKeys "correct horse" next (drawing byte) = .ok sealed ∧
        crashed.files .store = some sealed := by
  intro next ended crashed
  have hmax : 3 < maxChainEntries ∧ 3 < Store.maxEntries := by decide
  obtain ⟨plan, hplan⟩ := @advancePlan_succeeds sampleKeys "correct horse" sampleKeys_seals chain
    h.coherent (by omega) (by omega) (by decide) _ (drawing_complete byte)
  obtain ⟨⟨_, _, -, hrecords, -⟩, hsealed, hhistory⟩ := advancePlan_eq_ok hplan
  obtain ⟨-, hlength, hheld⟩ := @EpochChain.advance_ok sampleKeys.crypto chain (by omega)
    ⟨Vector.replicate 32 byte⟩
  have hrun := @run_of_writes sampleKeys "correct horse" "history" "store" world
    (.advance (drawing byte)) _ (advance_writes h.load hplan)
  have hended : ended = ⟨world.files.after [(.store, plan.1), (.history, plan.2)],
      world.erased⟩ := hrun 2
  have hcrashed : crashed = ⟨world.files.after [(.store, plan.1)], world.erased⟩ := hrun 1
  rw [hended, hcrashed]
  have hne : next.records ≠ [] := by
    rw [hrecords]
    exact List.append_ne_nil_of_right_ne_nil _ (List.cons_ne_nil _ _)
  refine ⟨⟨⟨h.coherent.advance _, hne, hlength.trans_le hroom, hheld.trans_le hfew, ?_, ?_⟩, rfl⟩,
    rfl, rfl, plan.1, hsealed, rfl⟩
  · show some plan.2 = _
    rw [hhistory]
  · exact ⟨_, plan.1, hsealed, rfl⟩

theorem Holds.erase (h : Holds world.files chain) {number : EpochNumber}
    (hnumber : number.toNat + 1 < chain.records.length)
    (hreadable : chain.isReadable 64 number = true)
    (hfew : (chain.erase 64 number).2.held.length ≤ 3) (byte : UInt8) :
    let ended :=
      world.run sampleKeys "correct horse" "history" "store" (.erase number (drawing byte)) 1
    Holds ended.files (chain.erase 64 number).2 ∧ ended.erased = number :: world.erased := by
  intro ended
  have hmax : 3 ≤ Store.maxEntries := by decide
  obtain ⟨sealed, hplan⟩ := @erasePlan_succeeds sampleKeys "correct horse" sampleKeys_seals chain
    h.coherent number hnumber hreadable (by omega) (by decide) _ (drawing_complete byte)
  have hended : ended = ⟨world.files.after [(.store, sealed)], number :: world.erased⟩ :=
    @run_of_writes sampleKeys "correct horse" "history" "store" world
      (.erase number (drawing byte)) _ (erase_writes h.load hplan) 1
  have hrecords := (EpochChain.erase_frame chain number).1
  rw [hended]
  refine ⟨⟨h.coherent.erase number, ?_, ?_, hfew, ?_, ?_⟩, rfl⟩
  · rw [hrecords]
    exact h.nonempty
  · rw [hrecords]
    exact h.short
  · rw [hrecords]
    exact h.history
  · exact ⟨_, sealed, (erasePlan_eq_ok hplan).2, rfl⟩

end Sample

/-- Two epochs, the first of them erased. -/
def secondChain : EpochChain := (firstChain.advance sampleKeys.crypto (drawing 8).secret).2

def erasedChain : EpochChain := (secondChain.erase 64 0).2

/-- The theorem after a creation, an advance, an erase and an advance that crashed between the two
files: the history names two epochs, the store has the secret of the one that was not erased, and
of a third one that was never published. -/
theorem published_epochs_keep_their_secrets_crashed :
    let commands := [(.init (drawing 7), 2), (.advance (drawing 8), 2), (.erase 0 (drawing 9), 1),
      (.advance (drawing 10), 1)]
    let world := EpochWorld.fresh.runs sampleKeys "correct horse" "history" "store" commands
    ∃ first second, Published world.files [first, second] ∧ world.erased = [0] ∧
      HoldsSecret sampleKeys "correct horse" world.files 1 second.publicKey ∧
      ∃ file store, world.files .store = some file ∧
        EpochStore.«open» sampleKeys file "correct horse" = .ok store ∧
        store.get 0 = none ∧ (store.get 2).isSome = true := by
  intro commands world
  obtain ⟨-, hkept, -, hgone, -⟩ := published_epochs_keep_their_secrets sampleKeys sampleKeys_seals
    "correct horse" "history" "store" commands
  -- the four commands, one after the other
  obtain ⟨hcreated, hfirst⟩ := createdWorld_holds
  obtain ⟨⟨hsecond, hstill⟩, -⟩ := hcreated.advance (by decide) (by decide) 8
  obtain ⟨herased, hlist⟩ := hsecond.erase (show (0 : EpochNumber).toNat + 1 < 2 by decide)
    (by decide) (by decide) 9
  obtain ⟨-, hhistory, hsame, sealed, hsealed, hstore⟩ := herased.advance (show 2 < 3 by decide)
    (by decide) 10
  have hruns : EpochWorld.fresh.runs sampleKeys "correct horse" "history" "store" commands = world :=
    rfl
  have hzero : world.erased = [0] := by
    rw [show world.erased = _ from hsame, hlist, hstill, hfirst]
  have hpublished : Published world.files erasedChain.records := by
    refine ⟨encodeRecords erasedChain.records, ?_, decodeRecords_of_verify herased.coherent.verified⟩
    rw [show world.files .history = _ from hhistory]
    exact herased.history
  obtain ⟨-, store, hopen, -, hentries⟩ := sealChain_opens sampleKeys_seals
    (herased.coherent.advance _) hsealed
  refine ⟨_, _, hpublished, hzero, ?_, sealed, store, hstore, hopen, ?_, ?_⟩
  · apply hkept _ 1 _ hpublished rfl
    rw [hruns, hzero]
    decide
  · apply hgone 0 _ [] sealed store hstore hopen
    rw [hruns, hzero]
    exact List.mem_cons_self
  · unfold EpochStore.get
    rw [hentries]
    rfl

end HideProtocol.Cli
