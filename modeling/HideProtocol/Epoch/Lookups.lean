import Mathlib.Data.UInt
import HideProtocol.Crypto.PublicKeys
import HideProtocol.Epoch.Secrets

/-!
# Epochs beyond the chain

A lookup by epoch number casts the number to a `usize`. Where that drops high bits, a number beyond
the chain stands for one of its epochs: `lookups_refuse_iff` says exactly when.
-/

namespace HideProtocol.Epoch

open Lib Crypto

/-- Convenience for a sender: the key to use for an epoch. `display` is the text of an error. -/
def recipientFor (accepts : Vector UInt8 Crypto.publicKeyLength → Bool)
    (display : CryptoError → String) (bits : ℕ) (records : List EpochRecord)
    (number : EpochNumber) : Except EpochError RecipientPublic := do
  let record ← okOr records[asUsize bits number]? (.unknownEpoch number)
  mapErr (fun error => .crypto (display error)) (RecipientPublic.fromBytes accepts record.publicKey)

section
variable {accepts : Vector UInt8 Crypto.publicKeyLength → Bool} {display : CryptoError → String}
  {bits : ℕ}

theorem recipientFor_eq_unknown {records : List EpochRecord} {number : EpochNumber} :
    recipientFor accepts display bits records number = .error (.unknownEpoch number) ↔
      records.length ≤ asUsize bits number := by
  unfold recipientFor
  rw [← List.getElem?_eq_none_iff]
  cases hrecord : records[asUsize bits number]? with
  | none => exact iff_of_true rfl rfl
  | some record =>
    rw [okOr_some, ok_bind]
    cases RecipientPublic.fromBytes accepts record.publicKey <;> simp [mapErr]

namespace EpochChain

/-! ## Chains of a target -/

/-- The chains that calls come to on a target whose pointers have `bits` bits. -/
inductive Built (P : Primitives) (bits : ℕ) : EpochChain → Prop
  | new {generated : Except String RecipientSecret} {chain : EpochChain} :
      EpochChain.new P generated = .ok chain → Built P bits chain
  | restore {records : List EpochRecord} {secrets : List (EpochNumber × RecipientSecret)}
      {chain : EpochChain} :
      EpochChain.restore P bits records secrets = .ok chain → Built P bits chain
  | advance {chain : EpochChain} (h : Built P bits chain)
      (generated : Except String RecipientSecret) : Built P bits (chain.advance P generated).2
  | erase {chain : EpochChain} (h : Built P bits chain) (number : EpochNumber) :
      Built P bits (chain.erase bits number).2
  | eraseBefore {chain : EpochChain} (h : Built P bits chain) (keepFrom : EpochNumber) :
      Built P bits (chain.eraseBefore keepFrom).2

variable {P : Primitives} {chain : EpochChain} {number : EpochNumber}

theorem length_of_restoreStep {records : List EpochRecord} {held held' : List EpochSecret}
    {item : EpochNumber × RecipientSecret}
    (h : restoreStep P bits records held item = .ok held') : held'.length = held.length := by
  unfold restoreStep at h
  simp only [bind_eq_ok, pure_eq_ok] at h
  obtain ⟨_, -, _, -, _, -, _, -, _, -, rfl⟩ := h
  exact List.length_set

theorem length_of_foldlM {records : List EpochRecord}
    {secrets : List (EpochNumber × RecipientSecret)} {held held' : List EpochSecret}
    (h : secrets.foldlM (restoreStep P bits records) held = .ok held') :
    held'.length = held.length := by
  induction secrets generalizing held with
  | nil =>
    cases h
    rfl
  | cons item secrets ih =>
    rw [List.foldlM_cons] at h
    obtain ⟨mid, hstep, h⟩ := bind_eq_ok.mp h
    exact (ih h).trans (length_of_restoreStep hstep)

theorem erase_of_none (h : chain.secrets[asUsize bits number]? = none) :
    chain.erase bits number = (.error (.unknownEpoch number), chain) := by
  simp only [EpochChain.erase, h]

theorem erase_of_some {held : EpochSecret} (h : chain.secrets[asUsize bits number]? = some held) :
    chain.erase bits number = (.ok (),
      { chain with secrets := chain.secrets.set (asUsize bits number) held.erase }) := by
  simp only [EpochChain.erase, h]

/-- A chain has one slot for each record. -/
theorem Built.length (h : Built P bits chain) : chain.secrets.length = chain.records.length := by
  induction h with
  | @new generated chain hnew =>
    rw [(new_eq_ok hnew).1]
    exact (Coherent.empty.advance generated).length
  | restore hrestore =>
    unfold EpochChain.restore at hrestore
    simp only [bind_eq_ok, pure_eq_ok] at hrestore
    obtain ⟨_, -, _, -, held, hrun, rfl⟩ := hrestore
    exact (length_of_foldlM hrun).trans (List.length_map _)
  | @advance chain h generated ih =>
    rcases advance_cases (P := P) chain generated with ⟨e, heq⟩ | ⟨secret, -, -, heq⟩
    · rwa [heq]
    · rw [heq]
      simp [ih]
  | @erase chain h number ih =>
    cases hslot : chain.secrets[asUsize bits number]? with
    | none => rwa [erase_of_none hslot]
    | some held =>
      rw [erase_of_some hslot]
      exact List.length_set.trans ih
  | @eraseBefore chain h keepFrom ih =>
    simp [EpochChain.eraseBefore, eraseSlots_eq, ih]

/-! ## When the lookups refuse -/

/-- Every lookup refuses the number, and erasing it changes nothing. -/
structure Refuses (accepts : Vector UInt8 Crypto.publicKeyLength → Bool)
    (display : CryptoError → String) (bits : ℕ) (chain : EpochChain) (number : EpochNumber) :
    Prop where
  publicKey : chain.publicKey bits number = .error (.unknownEpoch number)
  secret : chain.secret bits number = .error (.unknownEpoch number)
  recipientFor : Epoch.recipientFor accepts display bits chain.records number =
    .error (.unknownEpoch number)
  isReadable : chain.isReadable bits number = false
  erase : chain.erase bits number = (.error (.unknownEpoch number), chain)

/-- On a chain with one slot for each record, the lookups refuse together. -/
theorem refuses_iff (h : chain.secrets.length = chain.records.length) :
    Refuses accepts display bits chain number ↔ chain.records.length ≤ asUsize bits number := by
  constructor
  · intro hrefuses
    exact recipientFor_eq_unknown.mp hrefuses.recipientFor
  · intro hbeyond
    have hrecord : chain.records[asUsize bits number]? = none := List.getElem?_eq_none hbeyond
    have hslot : chain.secrets[asUsize bits number]? = none :=
      List.getElem?_eq_none (by rw [h]; exact hbeyond)
    refine ⟨?_, ?_, recipientFor_eq_unknown.mpr hbeyond, ?_, erase_of_none hslot⟩
    · rw [EpochChain.publicKey, hrecord]
      rfl
    · rw [EpochChain.secret, hslot]
      rfl
    · rw [EpochChain.isReadable, hslot]
      rfl

/-- A number beyond the chain is refused exactly when the cast leaves it there. -/
theorem lookups_refuse_iff (P : Primitives)
    (accepts : Vector UInt8 Crypto.publicKeyLength → Bool) (display : CryptoError → String)
    (bits : ℕ) :
    (∀ chain number, Built P bits chain → chain.records.length ≤ number.toNat →
      (Refuses accepts display bits chain number ↔
        chain.records.length ≤ number.toNat % 2 ^ bits)) ∧
    ∀ records number, verify P.sha256 records = .ok () → records.length ≤ number.toNat →
      (Epoch.recipientFor accepts display bits records number = .error (.unknownEpoch number) ↔
        records.length ≤ number.toNat % 2 ^ bits) := by
  refine ⟨?_, ?_⟩
  · intro chain number h _
    exact refuses_iff h.length
  · intro records number _ _
    exact recipientFor_eq_unknown

end EpochChain

end

namespace EpochChain

/-- A chain of one epoch. -/
def oneEpoch (P : Primitives) (secret : RecipientSecret) : EpochChain :=
  (EpochChain.advance P ⟨[], []⟩ (.ok secret)).2

theorem built_oneEpoch (P : Primitives) (bits : ℕ) (secret : RecipientSecret) :
    Built P bits (oneEpoch P secret) := @Built.new P bits (.ok secret) _ rfl

theorem lookups_refuse_iff_samples :
    Refuses (fun _ => true) (fun _ => "") 32 (oneEpoch .toy ⟨Vector.replicate 32 7⟩) (2 ^ 32 + 1) ∧
      recipientFor (fun _ => true) (fun _ => "") 32 [] (2 ^ 32) = .error (.unknownEpoch (2 ^ 32)) :=
  ⟨((lookups_refuse_iff .toy (fun _ => true) (fun _ => "") 32).1 _ _ (built_oneEpoch _ _ _)
      (by decide)).mpr (by decide),
    ((lookups_refuse_iff .toy (fun _ => true) (fun _ => "") 32).2 [] _ (by rfl) (by decide)).mpr
      (by decide)⟩

/-- On a 32-bit target the number 2³² of a chain of one epoch is its epoch 0: the secret of that
epoch is returned, and erased. -/
theorem lookups_wrap :
    ¬ (∀ bits, bits = 32 ∨ bits = 64 → ∀ chain number, Built .toy bits chain →
        chain.records.length ≤ number.toNat →
        Refuses (fun _ => true) (fun _ => "") bits chain number) ∧
      (oneEpoch .toy ⟨Vector.replicate 32 7⟩).secret 32 (2 ^ 32) = .ok ⟨Vector.replicate 32 7⟩ ∧
      (oneEpoch .toy ⟨Vector.replicate 32 7⟩).isReadable 32 0 = true ∧
      ((oneEpoch .toy ⟨Vector.replicate 32 7⟩).erase 32 (2 ^ 32)).2.isReadable 32 0 = false := by
  refine ⟨?_, rfl, rfl, rfl⟩
  intro h
  have hrefuses := h 32 (Or.inl rfl) (oneEpoch .toy ⟨Vector.replicate 32 7⟩) (2 ^ 32)
    (built_oneEpoch _ _ _) (by decide)
  have hreadable := hrefuses.isReadable
  cases hreadable

end EpochChain

end HideProtocol.Epoch
