import HideProtocol.Crypto.Suite
import HideProtocol.Epoch.Chain
import HideProtocol.Lib.Run
import HideProtocol.Lib.Usize

/-!
# The secrets of an epoch chain

The recipient's own view of a chain: the public records, and beside them one slot for each epoch
that holds its secret until the epoch is erased. A slot that has been emptied is never filled
again, whatever is called afterwards; that is the forward security of the scheme.

Secrets are drawn at random, so `advance` takes the outcome of `generate` as an argument. The
width of `usize` is a parameter, since epoch numbers are cast to it.
-/

namespace HideProtocol.Epoch

open Lib Crypto

/-- One epoch's secret, held only while the epoch is live. -/
structure EpochSecret where
  number : EpochNumber
  secret : Option RecipientSecret
deriving DecidableEq

/-- Drops the secret. -/
def EpochSecret.erase (self : EpochSecret) : EpochSecret := { self with secret := none }

/-- The public history and whichever secrets survive. -/
structure EpochChain where
  records : List EpochRecord
  secrets : List EpochSecret
deriving DecidableEq

namespace EpochChain

section
variable (P : Primitives) (bits : ℕ)

/-- The bytes of the public key of a secret. -/
def publicKeyBytes (secret : RecipientSecret) : Bytes := (secret.publicKey P).key.toList

/-- Mints the next epoch. `generated` is what `RecipientSecret::generate` returns, its error as
text. Returns the result and the chain after the call. -/
def advance (self : EpochChain) (generated : Except String RecipientSecret) :
    Except EpochError EpochNumber × EpochChain :=
  let number := UInt64.ofNat self.records.length
  if self.records.length ≥ maxChainEntries then
    (.error (.tooManyEntries self.records.length), self)
  else
    match generated with
    | .error text => (.error (.crypto text), self)
    | .ok secret =>
      let publicKey := publicKeyBytes P secret
      let previous := chainHead self.records
      let record := { number, publicKey, link := linkFor P.sha256 previous number publicKey }
      (.ok number,
        { records := self.records ++ [record]
          secrets := self.secrets ++ [{ number, secret := some secret }] })

/-- Starts a chain at epoch zero. -/
def new (generated : Except String RecipientSecret) : Except EpochError EpochChain :=
  match advance P ⟨[], []⟩ generated with
  | (.ok _, chain) => .ok chain
  | (.error e, _) => .error e

def current (self : EpochChain) : EpochNumber := UInt64.ofNat (self.records.length - 1)

/-- The public key for an epoch, for a sender to encrypt to. -/
def publicKey (self : EpochChain) (number : EpochNumber) : Except EpochError Bytes :=
  okOr (self.records[asUsize bits number]?.map EpochRecord.publicKey) (.unknownEpoch number)

/-- The secret for an epoch, if it has not been erased. -/
def secret (self : EpochChain) (number : EpochNumber) : Except EpochError RecipientSecret := do
  let held ← okOr self.secrets[asUsize bits number]? (.unknownEpoch number)
  okOr held.secret (.erased number)

/-- Erases one epoch's secret. -/
def erase (self : EpochChain) (number : EpochNumber) : Except EpochError Unit × EpochChain :=
  let index := asUsize bits number
  match self.secrets[index]? with
  | none => (.error (.unknownEpoch number), self)
  | some held => (.ok (), { self with secrets := self.secrets.set index held.erase })

/-- The loop of `erase_before`: the slots after it, and how many it emptied. -/
def eraseSlots (keepFrom : EpochNumber) : List EpochSecret → List EpochSecret × ℕ
  | [] => ([], 0)
  | held :: rest =>
    let (slots, erased) := eraseSlots keepFrom rest
    if held.number < keepFrom ∧ held.secret.isSome = true then (held.erase :: slots, erased + 1)
    else (held :: slots, erased)

/-- Erases every epoch before `keepFrom`, and counts them. -/
def eraseBefore (self : EpochChain) (keepFrom : EpochNumber) : ℕ × EpochChain :=
  let (slots, erased) := eraseSlots keepFrom self.secrets
  (erased, { self with secrets := slots })

/-- Whether an epoch can still be read. -/
def isReadable (self : EpochChain) (number : EpochNumber) : Bool :=
  self.secrets[asUsize bits number]?.any fun held => held.secret.isSome

/-- The latest link. -/
def head (self : EpochChain) : Hash := chainHead self.records

/-- Every secret still held, ascending by epoch. -/
def held (self : EpochChain) : List (EpochNumber × RecipientSecret) :=
  self.secrets.filterMap fun slot => slot.secret.map fun secret => (slot.number, secret)

/-- The loop of `restore`: puts one secret in its slot. -/
def restoreStep (records : List EpochRecord) (held : List EpochSecret)
    (item : EpochNumber × RecipientSecret) : Except EpochError (List EpochSecret) := do
  let (number, secret) := item
  let index ← okOr ((tryUsize bits number).filter (· < records.length)) (.unknownEpoch number)
  -- in range, by the test above
  let record ← okOr records[index]? (.unknownEpoch number)
  failIf (publicKeyBytes P secret ≠ record.publicKey) (.secretMismatch number)
  let slot ← okOr held[index]? (.unknownEpoch number)
  failIf (slot.secret.isSome = true) (.duplicateSecret number)
  pure (held.set index { slot with secret := some secret })

/-- Rebuilds a chain from its public history and whichever secrets survived. -/
def restore (records : List EpochRecord) (secrets : List (EpochNumber × RecipientSecret)) :
    Except EpochError EpochChain := do
  verify P.sha256 records
  failIf (records = []) .malformed
  let held ← secrets.foldlM (restoreStep P bits records)
    (records.map fun record => ⟨record.number, none⟩)
  pure { records, secrets := held }

end

/-! ## Coherence -/

/-- The records verify, slot `i` is epoch `i`'s, and every secret held is that of its record. -/
structure Coherent (P : Primitives) (chain : EpochChain) : Prop where
  verified : verify P.sha256 chain.records = .ok ()
  length : chain.secrets.length = chain.records.length
  numbered : ∀ i slot, chain.secrets[i]? = some slot → slot.number = UInt64.ofNat i
  matching : ∀ (i : ℕ) (slot : EpochSecret) (secret : RecipientSecret) (record : EpochRecord),
    chain.secrets[i]? = some slot → slot.secret = some secret →
      chain.records[i]? = some record → publicKeyBytes P secret = record.publicKey

/-- Epoch `i` is in the chain and its secret is gone. -/
def Emptied (chain : EpochChain) (i : ℕ) : Prop :=
  ∃ slot, chain.secrets[i]? = some slot ∧ slot.secret = none

section
variable {P : Primitives} {chain : EpochChain}

theorem length_publicKeyBytes (secret : RecipientSecret) :
    (publicKeyBytes P secret).length = Epoch.publicKeyLength := Vector.length_toList

theorem Coherent.empty : Coherent P ⟨[], []⟩ :=
  ⟨verify_nil, rfl, by simp, by simp⟩

/-! ## What each call does -/

/-- A call of `advance` fails and changes nothing, or adds a record and a full slot. -/
theorem advance_cases (chain : EpochChain) (generated : Except String RecipientSecret) :
    (∃ e, chain.advance P generated = (.error e, chain)) ∨
    ∃ secret, generated = .ok secret ∧ chain.records.length < maxChainEntries ∧
      chain.advance P generated = (.ok (UInt64.ofNat chain.records.length),
        { records := chain.records ++
            [⟨UInt64.ofNat chain.records.length, publicKeyBytes P secret,
              linkFor P.sha256 (chainHead chain.records) (UInt64.ofNat chain.records.length)
                (publicKeyBytes P secret)⟩]
          secrets := chain.secrets ++
            [⟨UInt64.ofNat chain.records.length, some secret⟩] }) := by
  unfold advance
  by_cases hfull : chain.records.length ≥ maxChainEntries
  · left
    exact ⟨_, if_pos hfull⟩
  · simp only [if_neg hfull]
    cases generated with
    | error text =>
      left
      exact ⟨_, rfl⟩
    | ok secret =>
      right
      exact ⟨secret, rfl, Nat.lt_of_not_le hfull, rfl⟩

/-- A chain with room for one more epoch gets it. -/
theorem advance_ok (h : chain.records.length < maxChainEntries) (secret : RecipientSecret) :
    (chain.advance P (.ok secret)).1 = .ok (UInt64.ofNat chain.records.length) ∧
      (chain.advance P (.ok secret)).2.records.length = chain.records.length + 1 ∧
      (chain.advance P (.ok secret)).2.held.length = chain.held.length + 1 := by
  unfold advance held
  simp only [if_neg (Nat.not_le.mpr h)]
  rw [List.filterMap_append, List.length_append, List.length_append]
  exact ⟨trivial, rfl, rfl⟩

/-- A new chain is the first step of an empty one. -/
theorem new_eq_ok {generated : Except String RecipientSecret} (h : new P generated = .ok chain) :
    chain = (advance P ⟨[], []⟩ generated).2 ∧ chain.records ≠ [] := by
  unfold new at h
  rcases advance_cases (P := P) ⟨[], []⟩ generated with ⟨e, heq⟩ | ⟨secret, -, -, heq⟩
  · rw [heq] at h
    cases h
  · rw [heq] at h ⊢
    cases h
    exact ⟨rfl, by simp⟩

/-- A call of `erase` fails and changes nothing, or empties one slot. -/
theorem erase_cases (chain : EpochChain) (number : EpochNumber) :
    (chain.secrets[number.toNat]? = none ∧
      chain.erase 64 number = (.error (.unknownEpoch number), chain)) ∨
    ∃ held, chain.secrets[number.toNat]? = some held ∧
      chain.erase 64 number =
        (.ok (), { chain with secrets := chain.secrets.set number.toNat held.erase }) := by
  simp only [erase, asUsize_64]
  cases hslot : chain.secrets[number.toNat]? with
  | none =>
    left
    exact ⟨rfl, rfl⟩
  | some held =>
    right
    exact ⟨held, rfl, rfl⟩

theorem eraseSlots_eq (keepFrom : EpochNumber) (slots : List EpochSecret) :
    eraseSlots keepFrom slots =
      (slots.map fun slot => if slot.number < keepFrom then slot.erase else slot,
        slots.countP fun slot => decide (slot.number < keepFrom ∧ slot.secret.isSome = true)) := by
  induction slots with
  | nil => rfl
  | cons slot slots ih =>
    simp only [eraseSlots, ih, List.map_cons, List.countP_cons]
    by_cases hnumber : slot.number < keepFrom
    · cases hsecret : slot.secret with
      | none =>
        -- an empty slot is not counted, and erasing it again leaves it as it is
        have herase : slot.erase = slot := by
          obtain ⟨number, secret⟩ := slot
          cases hsecret
          rfl
        simp [hnumber, herase]
      | some secret => simp [hnumber]
    · simp [hnumber]

theorem eraseBefore_slot {keepFrom : EpochNumber} (i : ℕ) :
    (chain.eraseBefore keepFrom).2.secrets[i]? =
      chain.secrets[i]?.map fun slot => if slot.number < keepFrom then slot.erase else slot := by
  simp only [eraseBefore, eraseSlots_eq, List.getElem?_map]

/-! ## Calls keep a chain coherent -/

theorem Coherent.advance (h : Coherent P chain) (generated : Except String RecipientSecret) :
    Coherent P (chain.advance P generated).2 := by
  rcases advance_cases (P := P) chain generated with ⟨e, heq⟩ | ⟨secret, -, hlen, heq⟩
  · rwa [heq]
  · rw [heq]
    have hlength := h.length
    refine ⟨?_, by simp [hlength], ?_, ?_⟩
    · exact verify_append.mpr ⟨h.verified, hlen, rfl, length_publicKeyBytes secret, rfl⟩
    · intro i slot hslot
      by_cases hi : i < chain.secrets.length
      · rw [List.getElem?_append_left hi] at hslot
        exact h.numbered i slot hslot
      · rw [List.getElem?_append_right (by omega)] at hslot
        have hlast := (List.getElem?_eq_some_iff.mp hslot).1
        rw [List.length_singleton] at hlast
        have hi' : i = chain.records.length := by omega
        rw [List.mem_singleton.mp (List.mem_of_getElem? hslot), hi']
    · intro i slot held record hslot hheld hrecord
      by_cases hi : i < chain.secrets.length
      · rw [List.getElem?_append_left hi] at hslot
        rw [List.getElem?_append_left (by omega)] at hrecord
        exact h.matching i slot held record hslot hheld hrecord
      · -- the new slot, beside the new record
        rw [List.getElem?_append_right (by omega)] at hslot hrecord
        rw [List.mem_singleton.mp (List.mem_of_getElem? hslot)] at hheld
        rw [List.mem_singleton.mp (List.mem_of_getElem? hrecord), Option.some.inj hheld]

/-- Emptying slots keeps a chain coherent. -/
theorem Coherent.of_erased (h : Coherent P chain) {slots : List EpochSecret}
    (hlen : slots.length = chain.secrets.length)
    (hslots : ∀ (i : ℕ) (slot : EpochSecret), slots[i]? = some slot → ∃ before : EpochSecret,
      chain.secrets[i]? = some before ∧ (slot = before ∨ slot = before.erase)) :
    Coherent P { chain with secrets := slots } := by
  refine ⟨h.verified, hlen.trans h.length, ?_, ?_⟩
  · intro i slot hslot
    obtain ⟨before, hbefore, hsame⟩ := hslots i slot hslot
    rcases hsame with rfl | rfl
    · exact h.numbered i _ hbefore
    · exact h.numbered i before hbefore
  · intro i slot secret record hslot hsecret hrecord
    obtain ⟨before, hbefore, hsame⟩ := hslots i slot hslot
    rcases hsame with rfl | rfl
    · exact h.matching i _ secret record hbefore hsecret hrecord
    · cases hsecret

theorem Coherent.erase (h : Coherent P chain) (number : EpochNumber) :
    Coherent P (chain.erase 64 number).2 := by
  rcases erase_cases chain number with ⟨-, heq⟩ | ⟨held, hheld, heq⟩
  · rwa [heq]
  · rw [heq]
    apply h.of_erased List.length_set
    intro i slot hslot
    by_cases hi : number.toNat = i
    · rw [← hi, List.getElem?_set_self (List.getElem?_eq_some_iff.mp hheld).1] at hslot
      exact ⟨held, hi ▸ hheld, .inr (Option.some.inj hslot).symm⟩
    · rw [List.getElem?_set_ne hi] at hslot
      exact ⟨slot, hslot, .inl rfl⟩

theorem Coherent.eraseBefore (h : Coherent P chain) (keepFrom : EpochNumber) :
    Coherent P (chain.eraseBefore keepFrom).2 := by
  apply h.of_erased (by simp [eraseSlots_eq])
  intro i slot hslot
  have hslot' : (chain.eraseBefore keepFrom).2.secrets[i]? = some slot := hslot
  rw [eraseBefore_slot] at hslot'
  obtain ⟨before, hbefore, hsame⟩ := Option.map_eq_some_iff.mp hslot'
  refine ⟨before, hbefore, ?_⟩
  rw [← hsame]
  split
  · exact .inr rfl
  · exact .inl rfl

/-! ## An empty slot stays empty -/

theorem Emptied.advance {i : ℕ} (h : Emptied chain i) (generated : Except String RecipientSecret) :
    Emptied (chain.advance P generated).2 i := by
  rcases advance_cases (P := P) chain generated with ⟨e, heq⟩ | ⟨secret, -, -, heq⟩
  · rwa [heq]
  · obtain ⟨slot, hslot, hempty⟩ := h
    rw [heq]
    refine ⟨slot, ?_, hempty⟩
    rw [List.getElem?_append_left (List.getElem?_eq_some_iff.mp hslot).1]
    exact hslot

theorem Emptied.erase {i : ℕ} (h : Emptied chain i) (number : EpochNumber) :
    Emptied (chain.erase 64 number).2 i := by
  rcases erase_cases chain number with ⟨-, heq⟩ | ⟨held, hheld, heq⟩
  · rwa [heq]
  · obtain ⟨slot, hslot, hempty⟩ := h
    rw [heq]
    by_cases hi : number.toNat = i
    · refine ⟨held.erase, ?_, rfl⟩
      rw [← hi, List.getElem?_set_self (List.getElem?_eq_some_iff.mp hheld).1]
    · exact ⟨slot, by rw [List.getElem?_set_ne hi, hslot], hempty⟩

theorem Emptied.eraseBefore {i : ℕ} (h : Emptied chain i) (keepFrom : EpochNumber) :
    Emptied (chain.eraseBefore keepFrom).2 i := by
  obtain ⟨slot, hslot, hempty⟩ := h
  refine ⟨if slot.number < keepFrom then slot.erase else slot, ?_, ?_⟩
  · rw [eraseBefore_slot, hslot]
    rfl
  · split
    · rfl
    · exact hempty

/-- A new epoch has its secret. -/
theorem Emptied.of_advance {i : ℕ} {generated : Except String RecipientSecret}
    (h : Emptied (chain.advance P generated).2 i) : Emptied chain i := by
  rcases advance_cases (P := P) chain generated with ⟨e, heq⟩ | ⟨secret, -, -, heq⟩
  · rwa [heq] at h
  · rw [heq] at h
    obtain ⟨slot, hslot, hempty⟩ := h
    by_cases hi : i < chain.secrets.length
    · rw [List.getElem?_append_left hi] at hslot
      exact ⟨slot, hslot, hempty⟩
    · rw [List.getElem?_append_right (by omega)] at hslot
      rw [List.mem_singleton.mp (List.mem_of_getElem? hslot)] at hempty
      cases hempty

/-- Erasing an epoch of the chain empties its slot and no other. -/
theorem emptied_erase_iff {number : EpochNumber} (h : number.toNat < chain.secrets.length) {i : ℕ} :
    Emptied (chain.erase 64 number).2 i ↔ i = number.toNat ∨ Emptied chain i := by
  rcases erase_cases chain number with ⟨hnone, -⟩ | ⟨held, hheld, heq⟩
  · rw [List.getElem?_eq_getElem h] at hnone
    cases hnone
  · rw [heq]
    by_cases hi : i = number.toNat
    · rw [hi]
      refine ⟨fun _ => .inl rfl, fun _ => ⟨held.erase, ?_, rfl⟩⟩
      exact List.getElem?_set_self h
    · unfold Emptied
      rw [or_iff_right hi, List.getElem?_set_ne (Ne.symm hi)]

/-! ## Restoring -/

/-- When one secret is put in its slot. -/
theorem restoreStep_eq_ok {records : List EpochRecord} {held held' : List EpochSecret}
    {number : EpochNumber} {secret : RecipientSecret} :
    restoreStep P 64 records held (number, secret) = .ok held' ↔
      ∃ record slot, records[number.toNat]? = some record ∧ held[number.toNat]? = some slot ∧
        publicKeyBytes P secret = record.publicKey ∧ slot.secret = none ∧
        held' = held.set number.toNat { slot with secret := some secret } := by
  unfold restoreStep
  simp only [tryUsize_64, Option.filter_some, bind_eq_ok, okOr_eq_ok, failIf_eq_ok, pure_eq_ok,
    decide_eq_true_eq, not_not, Bool.not_eq_true, Option.isSome_eq_false_iff,
    Option.isNone_iff_eq_none]
  constructor
  · rintro ⟨index, hindex, record, hrecord, _, hkey, slot, hslot, _, hempty, rfl⟩
    have hi : number.toNat = index := by
      by_cases h : number.toNat < records.length
      · simpa [h] using hindex
      · simp [h] at hindex
    rw [hi]
    exact ⟨record, slot, hrecord, hslot, hkey, hempty, rfl⟩
  · rintro ⟨record, slot, hrecord, hslot, hkey, hempty, rfl⟩
    have hlt : number.toNat < records.length := (List.getElem?_eq_some_iff.mp hrecord).1
    exact ⟨number.toNat, by simp [hlt], record, hrecord, (), hkey, slot, hslot, (), hempty, rfl⟩

/-- What the loop of `restore` keeps: the slots belong to the records, and a slot is full exactly
if its epoch is among `numbers`, those already seen. -/
structure Restoring (P : Primitives) (records : List EpochRecord) (numbers : List EpochNumber)
    (held : List EpochSecret) : Prop where
  coherent : Coherent P ⟨records, held⟩
  full : ∀ (i : ℕ) (slot : EpochSecret), held[i]? = some slot →
    (slot.secret.isSome = true ↔ UInt64.ofNat i ∈ numbers)

theorem Restoring.step {records : List EpochRecord} {numbers : List EpochNumber}
    {held held' : List EpochSecret} {number : EpochNumber} {secret : RecipientSecret}
    (h : Restoring P records numbers held)
    (hstep : restoreStep P 64 records held (number, secret) = .ok held') :
    Restoring P records (numbers ++ [number]) held' := by
  obtain ⟨record, slot, hrecord, hslot, hkey, -, rfl⟩ := restoreStep_eq_ok.mp hstep
  have hlt : number.toNat < held.length := (List.getElem?_eq_some_iff.mp hslot).1
  refine ⟨⟨h.coherent.verified, by simpa using h.coherent.length, ?_, ?_⟩, ?_⟩
  · intro i slot' hslot'
    by_cases hi : number.toNat = i
    · rw [← hi, List.getElem?_set_self hlt] at hslot'
      rw [← Option.some.inj hslot', ← hi]
      exact h.coherent.numbered _ slot hslot
    · rw [List.getElem?_set_ne hi] at hslot'
      exact h.coherent.numbered i slot' hslot'
  · intro i slot' secret' record' hslot' hsecret' hrecord'
    by_cases hi : number.toNat = i
    · rw [← hi, List.getElem?_set_self hlt] at hslot'
      rw [← hi, hrecord] at hrecord'
      rw [← Option.some.inj hslot'] at hsecret'
      rw [← Option.some.inj hsecret', ← Option.some.inj hrecord']
      exact hkey
    · rw [List.getElem?_set_ne hi] at hslot'
      exact h.coherent.matching i slot' secret' record' hslot' hsecret' hrecord'
  · intro i slot' hslot'
    by_cases hi : number.toNat = i
    · rw [← hi, List.getElem?_set_self hlt] at hslot'
      rw [← Option.some.inj hslot', ← hi]
      simp
    · rw [List.getElem?_set_ne hi] at hslot'
      have hne : UInt64.ofNat i ≠ number := by
        intro heq
        -- the index is below the chain's limit, so it is the number itself
        have hmax := length_of_verify h.coherent.verified
        have hlen := h.coherent.length
        have hi' := (List.getElem?_eq_some_iff.mp hslot').1
        have hsize : maxChainEntries < UInt64.size := by decide
        have := congrArg UInt64.toNat heq
        rw [UInt64.toNat_ofNat_of_lt' (by dsimp only at hmax hlen; omega)] at this
        exact hi this.symm
      rw [h.full i slot' hslot', List.mem_append, List.mem_singleton]
      simp [hne]

theorem Restoring.run {records : List EpochRecord} (secrets : List (EpochNumber × RecipientSecret))
    {numbers : List EpochNumber} {held held' : List EpochSecret}
    (h : Restoring P records numbers held)
    (hrun : secrets.foldlM (restoreStep P 64 records) held = .ok held') :
    Restoring P records (numbers ++ secrets.map Prod.fst) held' := by
  induction secrets generalizing numbers held with
  | nil =>
    cases hrun
    simpa using h
  | cons item secrets ih =>
    obtain ⟨number, secret⟩ := item
    rw [List.foldlM_cons] at hrun
    obtain ⟨mid, hstep, hrun⟩ := bind_eq_ok.mp hrun
    have hmid := ih (h.step hstep) hrun
    rwa [List.append_assoc, List.singleton_append] at hmid

theorem restoring_nil {records : List EpochRecord} (h : verify P.sha256 records = .ok ()) :
    Restoring P records [] (records.map fun record => ⟨record.number, none⟩) := by
  refine ⟨⟨h, List.length_map _, ?_, ?_⟩, ?_⟩
  · intro i slot hslot
    rw [List.getElem?_map] at hslot
    obtain ⟨record, hrecord, rfl⟩ := Option.map_eq_some_iff.mp hslot
    exact (record_of_verify h hrecord).1
  · intro i slot secret record hslot hsecret hrecord
    rw [List.getElem?_map] at hslot
    obtain ⟨record', -, rfl⟩ := Option.map_eq_some_iff.mp hslot
    cases hsecret
  · intro i slot hslot
    rw [List.getElem?_map] at hslot
    obtain ⟨record, -, rfl⟩ := Option.map_eq_some_iff.mp hslot
    simp

/-- A restored chain has the given records, and holds a secret for exactly the epochs that one
was given for. -/
theorem restore_eq_ok {records : List EpochRecord} {secrets : List (EpochNumber × RecipientSecret)}
    (h : restore P 64 records secrets = .ok chain) :
    chain.records = records ∧ records ≠ [] ∧
      Restoring P records (secrets.map Prod.fst) chain.secrets := by
  unfold restore at h
  obtain ⟨_, hverify, h⟩ := bind_eq_ok.mp h
  obtain ⟨_, hne, h⟩ := bind_eq_ok.mp h
  obtain ⟨held, hrun, h⟩ := bind_eq_ok.mp h
  rw [pure_eq_ok] at h
  rw [h]
  exact ⟨rfl, failIf_eq_ok.mp hne, Restoring.run secrets (restoring_nil hverify) hrun⟩

/-! ## Every secret still held -/

/-- The number of an index that is below the chain's limit. -/
theorem Coherent.toNat_ofNat (h : Coherent P chain) {i : ℕ} (hi : i < chain.secrets.length) :
    (UInt64.ofNat i).toNat = i := by
  have hmax := length_of_verify h.verified
  have hlen := h.length
  have hsize : maxChainEntries < UInt64.size := by decide
  exact UInt64.toNat_ofNat_of_lt' (by omega)

theorem mem_held (h : Coherent P chain) {number : EpochNumber} {secret : RecipientSecret} :
    (number, secret) ∈ chain.held ↔
      ∃ slot, chain.secrets[number.toNat]? = some slot ∧ slot.secret = some secret := by
  unfold held
  rw [List.mem_filterMap]
  constructor
  · rintro ⟨slot, hslot, hsome⟩
    obtain ⟨secret', hsecret, heq⟩ := Option.map_eq_some_iff.mp hsome
    obtain ⟨i, hi⟩ := List.getElem?_of_mem hslot
    have hnumber := h.numbered i slot hi
    have hlt := (List.getElem?_eq_some_iff.mp hi).1
    cases heq
    refine ⟨slot, ?_, hsecret⟩
    rw [hnumber, h.toNat_ofNat hlt]
    exact hi
  · rintro ⟨slot, hslot, hsecret⟩
    refine ⟨slot, List.mem_of_getElem? hslot, ?_⟩
    rw [hsecret, Option.map_some, h.numbered _ slot hslot, UInt64.ofNat_toNat]

theorem held_ascending (h : Coherent P chain) :
    chain.held.Pairwise fun a b => a.1 < b.1 := by
  have hsecrets : chain.secrets.Pairwise fun a b => a.number < b.number := by
    rw [List.pairwise_iff_getElem]
    intro i j hi hj hlt
    rw [h.numbered i _ (List.getElem?_eq_getElem hi), h.numbered j _ (List.getElem?_eq_getElem hj),
      UInt64.lt_iff_toNat_lt, h.toNat_ofNat hi, h.toNat_ofNat hj]
    exact hlt
  unfold held
  rw [List.pairwise_filterMap]
  apply hsecrets.imp
  intro a b hlt item hitem item' hitem'
  obtain ⟨secret, -, rfl⟩ := Option.map_eq_some_iff.mp hitem
  obtain ⟨secret', -, rfl⟩ := Option.map_eq_some_iff.mp hitem'
  exact hlt

/-- Putting the secrets back into emptied slots, from the first slot on. -/
theorem foldlM_restoreStep (h : Coherent P chain) {before todo : List EpochSecret}
    (hsplit : before ++ todo = chain.secrets) :
    (todo.filterMap fun slot => slot.secret.map fun secret => (slot.number, secret)).foldlM
      (restoreStep P 64 chain.records) (before ++ todo.map EpochSecret.erase) =
        .ok chain.secrets := by
  induction todo generalizing before with
  | nil =>
    rw [List.append_nil] at hsplit
    rw [List.map_nil, List.append_nil, hsplit]
    rfl
  | cons slot todo ih =>
    have hslot : chain.secrets[before.length]? = some slot := by
      rw [← hsplit, List.getElem?_append_right (Nat.le_refl _), Nat.sub_self]
      rfl
    have hlt := (List.getElem?_eq_some_iff.mp hslot).1
    have hnumber : slot.number.toNat = before.length := by
      rw [h.numbered _ slot hslot, h.toNat_ofNat hlt]
    have hnext := @ih (before ++ [slot]) (by rw [← hsplit, List.append_assoc]; rfl)
    rw [List.append_assoc, List.singleton_append] at hnext
    rw [List.map_cons]
    cases hsecret : slot.secret with
    | none =>
      have herase : slot.erase = slot := by
        obtain ⟨number, secret⟩ := slot
        cases hsecret
        rfl
      rw [List.filterMap_cons_none (by rw [hsecret, Option.map_none]), herase]
      exact hnext
    | some secret =>
      have hrecord := List.getElem?_eq_getElem (h.length ▸ hlt)
      have hstep : restoreStep P 64 chain.records
          (before ++ slot.erase :: todo.map EpochSecret.erase) (slot.number, secret) =
          .ok (before ++ slot :: todo.map EpochSecret.erase) := by
        refine restoreStep_eq_ok.mpr ⟨_, slot.erase, ?_, ?_,
          h.matching _ slot secret _ hslot hsecret hrecord, rfl, ?_⟩
        · rw [hnumber]
          exact hrecord
        · rw [hnumber, List.getElem?_append_right (Nat.le_refl _), Nat.sub_self]
          rfl
        · rw [hnumber, List.set_append_right _ _ (Nat.le_refl _), Nat.sub_self,
            List.set_cons_zero, ← hsecret]
          rfl
      rw [List.filterMap_cons_some (by rw [hsecret, Option.map_some]), List.foldlM_cons, hstep,
        ok_bind]
      exact hnext

/-- A coherent chain is what its records and the secrets it holds are restored to. -/
theorem restore_held (h : Coherent P chain) (hne : chain.records ≠ []) :
    restore P 64 chain.records chain.held = .ok chain := by
  have hslots : chain.records.map (fun record => ⟨record.number, none⟩) =
      chain.secrets.map EpochSecret.erase := by
    apply List.ext_getElem?
    intro i
    rw [List.getElem?_map, List.getElem?_map]
    by_cases hi : i < chain.records.length
    · have hslot := List.getElem?_eq_getElem (h.length.symm ▸ hi)
      have hrecord := List.getElem?_eq_getElem hi
      rw [hslot, hrecord, Option.map_some, Option.map_some, EpochSecret.erase,
        h.numbered i _ hslot, (record_of_verify h.verified hrecord).1]
    · have hlen := h.length
      rw [List.getElem?_eq_none (by omega), List.getElem?_eq_none (by omega)]
      rfl
  have hfold := @foldlM_restoreStep _ _ h [] chain.secrets rfl
  rw [List.nil_append, ← hslots] at hfold
  have hheld : chain.held.foldlM (restoreStep P 64 chain.records)
      (chain.records.map fun record => ⟨record.number, none⟩) = .ok chain.secrets := hfold
  unfold restore
  rw [h.verified, ok_bind, failIf_neg _ hne, ok_bind, hheld]
  rfl

/-! ## Readability -/

theorem isReadable_iff {number : EpochNumber} :
    chain.isReadable 64 number = true ↔
      ∃ slot, chain.secrets[number.toNat]? = some slot ∧ slot.secret.isSome = true := by
  simp only [isReadable, asUsize_64, Option.any_eq_true]

/-- An epoch of the chain is unreadable when its slot is empty. -/
theorem emptied_iff (h : Coherent P chain) {number : EpochNumber}
    (hnumber : number.toNat < chain.records.length) :
    Emptied chain number.toNat ↔ chain.isReadable 64 number = false := by
  have hlt : number.toNat < chain.secrets.length := h.length ▸ hnumber
  rw [← Bool.not_eq_true, isReadable_iff, Emptied, List.getElem?_eq_getElem hlt]
  simp

theorem not_isReadable {number : EpochNumber} (h : Emptied chain number.toNat) :
    chain.isReadable 64 number = false := by
  obtain ⟨slot, hslot, hempty⟩ := h
  rw [← Bool.not_eq_true, isReadable_iff]
  rintro ⟨slot', hslot', hfull⟩
  rw [hslot] at hslot'
  rw [← Option.some.inj hslot', hempty] at hfull
  cases hfull

/-- Counting over a list is counting over its indices. -/
theorem countP_eq_range {α : Type} (p : α → Bool) (xs : List α) :
    xs.countP p = (List.range xs.length).countP fun i => xs[i]?.any p := by
  induction xs using List.reverseRecOn with
  | nil => rfl
  | append_singleton xs x ih =>
    have hinit : (List.range xs.length).countP (fun i => (xs ++ [x])[i]?.any p) =
        (List.range xs.length).countP fun i => xs[i]?.any p := by
      apply List.countP_congr
      intro i hi
      rw [List.getElem?_append_left (List.mem_range.mp hi)]
    rw [List.countP_append, List.length_append, List.length_singleton, List.range_succ,
      List.countP_append, hinit, ih]
    simp

/-- `erase_before` returns the number of epochs that it made unreadable. -/
theorem eraseBefore_count (h : Coherent P chain) (keepFrom : EpochNumber) :
    (chain.eraseBefore keepFrom).1 = (List.range chain.records.length).countP fun i =>
      chain.isReadable 64 (UInt64.ofNat i) &&
        !(chain.eraseBefore keepFrom).2.isReadable 64 (UInt64.ofNat i) := by
  have hmax := length_of_verify h.verified
  have hsize : maxChainEntries < UInt64.size := by decide
  simp only [eraseBefore, eraseSlots_eq]
  rw [countP_eq_range, h.length]
  apply List.countP_congr
  intro i hi
  rw [List.mem_range] at hi
  have hnat : (UInt64.ofNat i).toNat = i := UInt64.toNat_ofNat_of_lt' (by omega)
  have hlt : i < chain.secrets.length := h.length ▸ hi
  have hslot : chain.secrets[i]? = some chain.secrets[i] := List.getElem?_eq_getElem hlt
  simp only [isReadable, asUsize_64, hnat, List.getElem?_map, hslot, Option.map_some,
    Option.any_some]
  by_cases hnumber : chain.secrets[i].number < keepFrom
  · simp [hnumber, EpochSecret.erase]
  · cases hsecret : chain.secrets[i].secret <;> simp [hnumber, hsecret]

end

/-! ## Runs -/

/-- A call that changes a chain, with its arguments. -/
inductive Operation where
  | advance (generated : Except String RecipientSecret)
  | erase (number : EpochNumber)
  | eraseBefore (keepFrom : EpochNumber)

section
variable (P : Primitives)

/-- The chain after one call. -/
def apply (chain : EpochChain) : Operation → EpochChain
  | .advance generated => (chain.advance P generated).2
  | .erase number => (chain.erase 64 number).2
  | .eraseBefore keepFrom => (chain.eraseBefore keepFrom).2

def run (chain : EpochChain) (operations : List Operation) : EpochChain :=
  operations.foldl (apply P) chain

/-- The two ways to come by a chain. -/
def Started (chain : EpochChain) : Prop :=
  (∃ generated, new P generated = .ok chain) ∨
    ∃ records secrets, restore P 64 records secrets = .ok chain

end

variable {P : Primitives} {chain : EpochChain}

theorem Started.coherent (h : Started P chain) : Coherent P chain := by
  rcases h with ⟨generated, hnew⟩ | ⟨records, secrets, hrestore⟩
  · rw [(new_eq_ok hnew).1]
    exact Coherent.empty.advance generated
  · obtain ⟨hrecords, -, hrestoring⟩ := restore_eq_ok hrestore
    rw [← hrecords] at hrestoring
    exact hrestoring.coherent

theorem Coherent.apply (h : Coherent P chain) (operation : Operation) :
    Coherent P (chain.apply P operation) := by
  cases operation with
  | advance generated => exact h.advance generated
  | erase number => exact h.erase number
  | eraseBefore keepFrom => exact h.eraseBefore keepFrom

theorem Coherent.run (h : Coherent P chain) (operations : List Operation) :
    Coherent P (chain.run P operations) := by
  induction operations generalizing chain with
  | nil => exact h
  | cons operation operations ih => exact ih (h.apply operation)

theorem Emptied.apply {i : ℕ} (h : Emptied chain i) (operation : Operation) :
    Emptied (chain.apply P operation) i := by
  cases operation with
  | advance generated => exact h.advance generated
  | erase number => exact h.erase number
  | eraseBefore keepFrom => exact h.eraseBefore keepFrom

theorem Emptied.run {i : ℕ} (h : Emptied chain i) (operations : List Operation) :
    Emptied (chain.run P operations) i := by
  induction operations generalizing chain with
  | nil => exact h
  | cons operation operations ih => exact ih (h.apply operation)

/-! ## What a run guarantees -/

theorem erase_frame (chain : EpochChain) (number : EpochNumber) :
    (chain.erase 64 number).2.records = chain.records ∧
      (∀ i, i ≠ number.toNat → (chain.erase 64 number).2.secrets[i]? = chain.secrets[i]?) ∧
      ((chain.erase 64 number).1 = .ok () →
        (chain.erase 64 number).2.isReadable 64 number = false) ∧
      ∀ e, (chain.erase 64 number).1 = .error e → (chain.erase 64 number).2 = chain := by
  rcases erase_cases chain number with ⟨-, heq⟩ | ⟨held, hheld, heq⟩
  · rw [heq]
    exact ⟨rfl, fun _ _ => rfl, fun h => (by cases h), fun _ _ => rfl⟩
  · rw [heq]
    refine ⟨rfl, ?_, ?_, fun _ h => (by cases h)⟩
    · intro i hi
      exact List.getElem?_set_ne hi.symm
    · intro _
      apply not_isReadable
      refine ⟨held.erase, ?_, rfl⟩
      rw [List.getElem?_set_self (List.getElem?_eq_some_iff.mp hheld).1]

theorem eraseBefore_frame (h : Coherent P chain) (keepFrom : EpochNumber) :
    (∀ i, keepFrom.toNat ≤ i →
      (chain.eraseBefore keepFrom).2.secrets[i]? = chain.secrets[i]?) ∧
    ∀ number, number < keepFrom →
      (chain.eraseBefore keepFrom).2.isReadable 64 number = false := by
  constructor
  · intro i hi
    rw [eraseBefore_slot]
    cases hslot : chain.secrets[i]? with
    | none => rfl
    | some slot =>
      -- slot `i` has number `i`, which is not below the bound
      have hmax := length_of_verify h.verified
      have hlen := h.length
      have hlt := (List.getElem?_eq_some_iff.mp hslot).1
      have hsize : maxChainEntries < UInt64.size := by decide
      have hnot : ¬slot.number < keepFrom := by
        rw [h.numbered i slot hslot, UInt64.lt_iff_toNat_lt, UInt64.toNat_ofNat_of_lt' (by omega)]
        omega
      rw [Option.map_some, if_neg hnot]
  · intro number hnumber
    rw [← Bool.not_eq_true, isReadable_iff, eraseBefore_slot]
    rintro ⟨slot, hslot, hfull⟩
    obtain ⟨before, hbefore, rfl⟩ := Option.map_eq_some_iff.mp hslot
    have hbelow : before.number < keepFrom := by
      rw [h.numbered _ before hbefore, UInt64.ofNat_toNat]
      exact hnumber
    rw [if_pos hbelow] at hfull
    cases hfull

/-- Erasure is permanent and the chain stays coherent, in every run of calls on a chain that was
started or restored. -/
theorem erasure_is_permanent (chain : EpochChain) (hstart : Started P chain)
    (operations : List Operation) :
    let now := chain.run P operations
    verify P.sha256 now.records = .ok () ∧
    (now.secrets.length = now.records.length ∧
      ∀ (i : ℕ) (slot : EpochSecret), now.secrets[i]? = some slot →
        slot.number = UInt64.ofNat i) ∧
    (∀ (i : ℕ) (slot : EpochSecret) (secret : RecipientSecret) (record : EpochRecord),
      now.secrets[i]? = some slot → slot.secret = some secret → now.records[i]? = some record →
      publicKeyBytes P secret = record.publicKey) ∧
    (∀ number later, number.toNat < now.records.length → now.isReadable 64 number = false →
      (now.run P later).isReadable 64 number = false) ∧
    (∀ records secrets number, restore P 64 records secrets = .ok chain →
      number.toNat < records.length → number ∉ secrets.map Prod.fst →
      now.isReadable 64 number = false) ∧
    (∀ number,
      let result := (now.erase 64 number).1
      let after := (now.erase 64 number).2
      after.records = now.records ∧
      (∀ i, i ≠ number.toNat → after.secrets[i]? = now.secrets[i]?) ∧
      (result = .ok () → after.isReadable 64 number = false) ∧
      ∀ e, result = .error e → after = now) ∧
    (∀ keepFrom,
      let erased := (now.eraseBefore keepFrom).1
      let after := (now.eraseBefore keepFrom).2
      after.records = now.records ∧
      (∀ i, keepFrom.toNat ≤ i → after.secrets[i]? = now.secrets[i]?) ∧
      (∀ number, number < keepFrom → after.isReadable 64 number = false) ∧
      erased = (List.range now.records.length).countP fun i =>
        now.isReadable 64 (UInt64.ofNat i) && !after.isReadable 64 (UInt64.ofNat i)) ∧
    ∀ generated e, (now.advance P generated).1 = .error e →
      (now.advance P generated).2 = now := by
  intro now
  have hcoherent : Coherent P now := hstart.coherent.run operations
  refine ⟨hcoherent.verified, ⟨hcoherent.length, hcoherent.numbered⟩, hcoherent.matching,
    ?_, ?_, ?_, ?_, ?_⟩
  · intro number later hnumber hunreadable
    -- a slot that was emptied stays empty through every later operation
    have hemptied := (emptied_iff hcoherent hnumber).mpr hunreadable
    exact not_isReadable (hemptied.run later)
  · intro records secrets number hrestore hnumber hmissing
    obtain ⟨hrecords, -, hrestoring⟩ := restore_eq_ok hrestore
    -- a secret that was not restored leaves its slot empty from the start
    have hlt : number.toNat < chain.secrets.length := by
      rw [hstart.coherent.length, hrecords]
      exact hnumber
    have hslot := List.getElem?_eq_getElem hlt
    have hfull := hrestoring.full _ _ hslot
    rw [UInt64.ofNat_toNat] at hfull
    have hempty : Emptied chain number.toNat :=
      ⟨_, hslot, Option.not_isSome_iff_eq_none.mp (mt hfull.mp hmissing)⟩
    exact not_isReadable (hempty.run operations)
  · intro number
    exact erase_frame now number
  · intro keepFrom
    obtain ⟨hkept, herased⟩ := eraseBefore_frame hcoherent keepFrom
    exact ⟨rfl, hkept, herased, eraseBefore_count hcoherent keepFrom⟩
  · intro generated e hfailed
    rcases advance_cases (P := P) now generated with ⟨e', heq⟩ | ⟨secret, -, -, heq⟩
    · rw [heq]
    · rw [heq] at hfailed
      cases hfailed

/-- A chain of one epoch. -/
def sampleChain : EpochChain := (advance Primitives.toy ⟨[], []⟩ (.ok ⟨Vector.replicate 32 7⟩)).2

/-- Epoch 0 is erased once there is a next one, and stays so when more are minted. -/
theorem erasure_is_permanent_sample :
    let minted := Operation.advance (.ok ⟨Vector.replicate 32 8⟩)
    let now := sampleChain.run .toy [minted, .erase 0]
    now.isReadable 64 0 = false ∧ now.isReadable 64 1 = true ∧
      (now.run .toy [minted, minted]).isReadable 64 0 = false := by
  intro minted now
  have hstart : Started .toy sampleChain := .inl ⟨.ok ⟨Vector.replicate 32 7⟩, rfl⟩
  have herased : now.isReadable 64 0 = false := by decide
  refine ⟨herased, by decide, ?_⟩
  exact (erasure_is_permanent sampleChain hstart [minted, .erase 0]).2.2.2.1 0 [minted, minted]
    (by decide) herased

end EpochChain

end HideProtocol.Epoch
