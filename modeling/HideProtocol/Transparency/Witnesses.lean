import HideProtocol.Transparency.NoteTheorems

/-!
# What the witness threshold counts

The loop of `verifyWitnessed` tells witnesses apart by name and key id, and a key id depends on
the name. So the threshold counts different keys exactly when no key is listed under two names
a note can carry. `OneName` is that condition on the list, `threshold_counts_keys` the
equivalence, and a list with one key under two names the exception.
-/

namespace HideProtocol.Transparency

open Lib

section
variable {sha256 : Bytes → Hash} {S : Sign.Primitives} {origin : Text}
  {log : Sign.VerifyingIdentity S} {witnesses : List (Text × Sign.VerifyingIdentity S)}

/-- There are `threshold` different keys among the witnesses, none of them the log's, and each
has a line in the note that verifies. -/
def EnoughKeys (note : SignedNote) (log : Sign.VerifyingIdentity S)
    (witnesses : List (Text × Sign.VerifyingIdentity S)) (threshold : ℕ) : Prop :=
  ∃ keys : List (Sign.VerifyingIdentity S), keys.Nodup ∧ threshold ≤ keys.length ∧
    ∀ key ∈ keys, key ≠ log ∧ (∃ name, (name, key) ∈ witnesses) ∧
      ∃ line ∈ note.signatures, note.Verifies key line

/-- Whatever note is accepted for whatever threshold, enough keys signed it. -/
def CountsKeys (sha256 : Bytes → Hash) (origin : Text) (log : Sign.VerifyingIdentity S)
    (witnesses : List (Text × Sign.VerifyingIdentity S)) : Prop :=
  ∀ bytes threshold checkpoint,
    Checkpoint.verifyWitnessed sha256 bytes origin log witnesses threshold = .ok checkpoint →
    ∃ note, SignedNote.decode bytes = .ok note ∧ Checkpoint.parseText note.text = .ok checkpoint ∧
      EnoughKeys note log witnesses threshold

/-- Among the entries whose name a line can carry, and which are not passed over as the log's,
none has the log's key and none shares its key with an entry of another name. -/
structure OneName (origin : Text) (log : Sign.VerifyingIdentity S)
    (witnesses : List (Text × Sign.VerifyingIdentity S)) : Prop where
  notLog : ∀ name key, (name, key) ∈ witnesses → validName name = true → name ≠ origin → key ≠ log
  unique : ∀ name name' key, (name, key) ∈ witnesses → (name', key) ∈ witnesses →
    validName name = true → validName name' = true → name ≠ origin → name' ≠ origin → name = name'

/-- The steps of a verification that succeeded. -/
theorem verifyWitnessed_eq_ok {bytes : Bytes} {threshold : ℕ} {checkpoint : Checkpoint} :
    Checkpoint.verifyWitnessed sha256 bytes origin log witnesses threshold = .ok checkpoint ↔
      ∃ note cosigned, SignedNote.decode bytes = .ok note ∧
        Checkpoint.parseText note.text = .ok checkpoint ∧ checkpoint.origin = origin ∧
        note.signedBy sha256 origin log = .ok true ∧
        Checkpoint.countWitnesses sha256 note [(origin, keyId sha256 origin log)] 0 witnesses =
          .ok cosigned ∧ threshold ≤ cosigned := by
  simp only [Checkpoint.verifyWitnessed, bind_eq_ok, failIf_eq_ok, pure_eq_ok, not_not, not_lt,
    Bool.not_eq_true', Bool.not_eq_false]
  constructor
  · rintro ⟨note, hnote, found, hfound, _, horigin, signed, hsigned, _, hs, cosigned, hcount, _,
      hle, rfl⟩
    exact ⟨note, cosigned, hnote, hfound, horigin, hs ▸ hsigned, hcount, hle⟩
  · rintro ⟨note, cosigned, hnote, hfound, horigin, hsigned, hcount, hle⟩
    exact ⟨note, hnote, checkpoint, hfound, (), horigin, true, hsigned, (), rfl, cosigned, hcount,
      (), hle, rfl⟩

/-- What the loop counts are different keys, if every key has one name. -/
theorem countsKeys_of_oneName (h : OneName origin log witnesses) :
    CountsKeys sha256 origin log witnesses := by
  intro bytes threshold checkpoint hok
  have ⟨note, cosigned, hnote, hparse, _, _, hcount, hle⟩ := verifyWitnessed_eq_ok.mp hok
  have ⟨chosen, hcounts, hn⟩ := countWitnesses_eq_ok hcount
  -- the name of a chosen entry stands on a line of the note
  have hname : ∀ p ∈ chosen, validName p.1 = true ∧ p.1 ≠ origin := by
    intro p hp
    have ⟨line, hline, heq, _⟩ := signedBy_eq_true (hcounts.signed p hp)
    refine ⟨heq ▸ SignedNote.validName_of_decode hnote line hline, ?_⟩
    exact (hcounts.new p hp (origin, keyId sha256 origin log) List.mem_cons_self).1.symm
  have hmem : ∀ p ∈ chosen, (p.1, p.2) ∈ witnesses := fun p hp => hcounts.sublist.subset hp
  refine ⟨note, hnote, hparse, chosen.map Prod.snd, ?_, ?_, ?_⟩
  · rw [List.nodup_iff_pairwise_ne, List.pairwise_map]
    apply hcounts.apart.imp_of_mem
    intro p q hp hq hapart heq
    apply hapart.1
    have hq' : (q.1, p.2) ∈ witnesses := heq ▸ hmem q hq
    exact h.unique p.1 q.1 p.2 (hmem p hp) hq' (hname p hp).1 (hname q hq).1 (hname p hp).2
      (hname q hq).2
  · rw [List.length_map]
    omega
  · intro key hkey
    have ⟨p, hp, heq⟩ := List.mem_map.mp hkey
    subst heq
    have ⟨line, hline, _, hverify⟩ := signedBy_eq_true (hcounts.signed p hp)
    exact ⟨h.notLog p.1 p.2 (hmem p hp) (hname p hp).1 (hname p hp).2, ⟨p.1, hmem p hp⟩, line, hline,
      hverify⟩

/-! ## Lists with keys under two names -/

/-- A list somebody can misuse: every key on it can sign, and no two entries, the log's among
them, have the same key id by accident. -/
structure Signable (sha256 : Bytes → Hash) (origin : Text) (log : Sign.VerifyingIdentity S)
    (witnesses : List (Text × Sign.VerifyingIdentity S)) : Prop where
  valid : validName origin = true
  signers : ∀ p ∈ (origin, log) :: witnesses,
    ∃ identity : Sign.SigningIdentity, p.2 = identity.verifyingKey S
  ids : ∀ p ∈ (origin, log) :: witnesses, ∀ q ∈ (origin, log) :: witnesses,
    keyId sha256 p.1 p.2 = keyId sha256 q.1 q.2 → p = q

/-- The checkpoint the parties sign. -/
def emptyCheckpoint (origin : Text) : Checkpoint :=
  { origin, size := 0, root := Vector.replicate 32 0 }

/-- Parties from the list sign an empty log. The note is accepted, and the entries that were
counted cover all of them. -/
theorem verifyWitnessed_partyNote (hS : S.Correct) (h : Signable sha256 origin log witnesses)
    {identity : Sign.SigningIdentity} (hlog : log = identity.verifyingKey S)
    {others : List (Text × Sign.SigningIdentity)} (hlen : others.length < maxSignatures)
    (hnames : ∀ p ∈ others, validName p.1 = true)
    (hlisted : ∀ p ∈ others, (p.1, p.2.verifyingKey S) ∈ witnesses) :
    ∃ text chosen, (emptyCheckpoint origin).text = .ok text ∧
      Counts sha256 (partyNote sha256 S text ((origin, identity) :: others))
        [(origin, keyId sha256 origin log)] witnesses chosen ∧
      (∀ p ∈ others, p.1 ≠ origin → ∃ q ∈ chosen, q.1 = p.1) ∧
      SignedNote.decode (textBytes
        (partyNote sha256 S text ((origin, identity) :: others)).encode) =
        .ok (partyNote sha256 S text ((origin, identity) :: others)) ∧
      Checkpoint.verifyWitnessed sha256 (textBytes
        (partyNote sha256 S text ((origin, identity) :: others)).encode) origin log witnesses
        chosen.length = .ok (emptyCheckpoint origin) := by
  have ⟨text, htext⟩ : ∃ text, (emptyCheckpoint origin).text = .ok text := by
    unfold Checkpoint.text
    rw [failIf_neg _ (by simp [emptyCheckpoint, h.valid]), ok_bind]
    exact ⟨_, rfl⟩
  let note := partyNote sha256 S text ((origin, identity) :: others)
  have hvalid : note.Valid := by
    apply partyNote_valid htext (by simp)
    · rw [List.length_cons]
      exact hlen
    · intro p hp
      rcases List.mem_cons.mp hp with rfl | hp
      · exact h.valid
      · exact hnames p hp
  have hdecode := SignedNote.decode_encode hvalid
  -- on the list, ids tell pairs apart
  have hparties : ∀ p ∈ (origin, identity) :: others,
      (p.1, p.2.verifyingKey S) ∈ (origin, log) :: witnesses := by
    intro p hp
    rcases List.mem_cons.mp hp with rfl | hp
    · rw [hlog]
      exact List.mem_cons_self
    · exact List.mem_cons_of_mem _ (hlisted p hp)
  have hsigned : ∀ q ∈ (origin, log) :: witnesses, note.signedBy sha256 q.1 q.2 =
      .ok (decide (∃ p ∈ (origin, identity) :: others, p.1 = q.1 ∧ p.2.verifyingKey S = q.2)) := by
    intro q hq
    apply signedBy_partyNote hS
    intro p hp _ hid
    exact congrArg Prod.snd (h.ids (p.1, p.2.verifyingKey S) (hparties p hp) q hq hid)
  -- the log itself signed, and counting goes through
  have hsignedOrigin : note.signedBy sha256 origin log = .ok true := by
    rw [hsigned (origin, log) List.mem_cons_self]
    congr 1
    exact decide_eq_true ⟨(origin, identity), List.mem_cons_self, rfl, hlog.symm⟩
  have ⟨n, hcount⟩ := countWitnesses_succeeds
    (fun p hp => ⟨_, hsigned p (List.mem_cons_of_mem _ hp)⟩) [(origin, keyId sha256 origin log)] 0
  have ⟨chosen, hcounts, hn⟩ := countWitnesses_eq_ok hcount
  refine ⟨text, chosen, htext, hcounts, ?_, hdecode, ?_⟩
  · intro p hp hne
    have hin : (p.1, p.2.verifyingKey S) ∈ witnesses := hlisted p hp
    have hsig : note.signedBy sha256 p.1 (p.2.verifyingKey S) = .ok true := by
      rw [hsigned _ (List.mem_cons_of_mem _ hin)]
      congr 1
      exact decide_eq_true ⟨p, List.mem_cons_of_mem _ hp, rfl, rfl⟩
    have ⟨entry, hentry, hmatch⟩ := hcounts.covers _ hin hsig
    rcases List.mem_append.mp hentry with hentry | hentry
    · -- the log's own entry covers nobody else
      rw [List.mem_singleton.mp hentry] at hmatch
      rcases hmatch with heq | heq
      · exact absurd heq.symm hne
      · have := h.ids (origin, log) List.mem_cons_self _ (List.mem_cons_of_mem _ hin) heq
        exact absurd (congrArg Prod.fst this).symm hne
    · have ⟨q, hq, heq⟩ := List.mem_map.mp hentry
      subst heq
      refine ⟨q, hq, ?_⟩
      rcases hmatch with heq | heq
      · exact heq
      · have hqin := List.mem_cons_of_mem (origin, log) (hcounts.sublist.subset hq)
        exact congrArg Prod.fst (h.ids q hqin _ (List.mem_cons_of_mem _ hin) heq)
  · apply verifyWitnessed_eq_ok.mpr
    exact ⟨note, n, hdecode, Checkpoint.parseText_text htext, rfl, hsignedOrigin, hcount, by omega⟩

/-- A line of the parties' note verifies only under the key of the party that signed it. -/
theorem party_of_verifies (hsep : S.Separates) {text : Text}
    {parties : List (Text × Sign.SigningIdentity)} {key : Sign.VerifyingIdentity S}
    {line : NoteSignature} (hline : line ∈ (partyNote sha256 S text parties).signatures)
    (h : (partyNote sha256 S text parties).Verifies key line) :
    ∃ p ∈ parties, key = p.2.verifyingKey S := by
  have ⟨p, hp, heq⟩ := List.mem_map.mp hline
  subst heq
  exact ⟨p, hp, hsep p.2 key checkpointContext (textBytes text) h⟩

/-- If the threshold counts keys, then whatever others sign next to the log, they have as many
different keys between them as they have names. -/
theorem keys_of_countsKeys (hS : S.Correct) (hsep : S.Separates)
    (h : Signable sha256 origin log witnesses) (hcounts : CountsKeys sha256 origin log witnesses)
    {identity : Sign.SigningIdentity} (hlog : log = identity.verifyingKey S)
    (others : List (Text × Sign.SigningIdentity)) (hlen : others.length < maxSignatures)
    (hnames : ∀ p ∈ others, validName p.1 = true)
    (hlisted : ∀ p ∈ others, (p.1, p.2.verifyingKey S) ∈ witnesses) :
    ∃ (keys : List (Sign.VerifyingIdentity S)) (names : List Text),
      names.length ≤ keys.length ∧ keys.Nodup ∧
      (∀ key ∈ keys, key ≠ log ∧ ∃ p ∈ others, key = p.2.verifyingKey S) ∧
      ∀ p ∈ others, p.1 ≠ origin → p.1 ∈ names := by
  have ⟨text, chosen, _, _, hcovers, hdecode, hverify⟩ := verifyWitnessed_partyNote hS h hlog hlen
    hnames hlisted
  have ⟨note, hnote, _, keys, hnodup, hle, hkeys⟩ := hcounts _ _ _ hverify
  rw [hdecode] at hnote
  have hnote := Except.ok.inj hnote
  subst hnote
  refine ⟨keys, chosen.map Prod.fst, by rwa [List.length_map], hnodup, ?_, ?_⟩
  · intro key hkey
    have ⟨hne, _, line, hline, hver⟩ := hkeys key hkey
    have ⟨p, hp, heq⟩ := party_of_verifies hsep hline hver
    rcases List.mem_cons.mp hp with rfl | hp
    · exact absurd (heq.trans hlog.symm) hne
    · exact ⟨hne, p, hp, heq⟩
  · intro p hp hne
    have ⟨q, hq, heq⟩ := hcovers p hp hne
    exact List.mem_map.mpr ⟨q, hq, heq⟩

theorem oneName_of_countsKeys (hS : S.Correct) (hsep : S.Separates)
    (h : Signable sha256 origin log witnesses) (hcounts : CountsKeys sha256 origin log witnesses) :
    OneName origin log witnesses := by
  have ⟨identity, hlog⟩ := h.signers (origin, log) List.mem_cons_self
  have hlog : log = identity.verifyingKey S := hlog
  constructor
  · intro name key hin hvalid hne heq
    subst heq
    -- the log signs once more, under the other name
    have ⟨keys, names, hle, _, hkeys, hcovers⟩ :=
      keys_of_countsKeys hS hsep h hcounts hlog [(name, identity)] (show 1 < maxSignatures by decide)
        (by simpa using hvalid) (by simpa [← hlog] using hin)
    have hmem := hcovers (name, identity) List.mem_cons_self hne
    have hpos : 0 < keys.length := by
      have := List.length_pos_of_mem hmem
      omega
    have ⟨k, hk⟩ := List.exists_mem_of_length_pos hpos
    have ⟨hkne, p, hp, hkeq⟩ := hkeys k hk
    rw [List.mem_singleton.mp hp] at hkeq
    exact hkne (hkeq.trans hlog.symm)
  · intro name name' key hin hin' hvalid hvalid' hne hne'
    by_contra hdiff
    have ⟨signer, hkey⟩ := h.signers (name, key) (List.mem_cons_of_mem _ hin)
    have hkey : key = signer.verifyingKey S := hkey
    -- one witness signs twice, under both names
    have ⟨keys, names, hle, hnodup, hkeys, hcovers⟩ :=
      keys_of_countsKeys hS hsep h hcounts hlog [(name, signer), (name', signer)]
        (show 2 < maxSignatures by decide) (by simpa using ⟨hvalid, hvalid'⟩)
        (by simpa [← hkey] using ⟨hin, hin'⟩)
    have hmem := hcovers (name, signer) (by simp) hne
    have hmem' := hcovers (name', signer) (by simp) hne'
    have htwo : 2 ≤ names.length := by
      by_contra hshort
      have ⟨a, ha⟩ : ∃ a, names = [a] := by
        apply List.length_eq_one_iff.mp
        have := List.length_pos_of_mem hmem
        omega
      rw [ha, List.mem_singleton] at hmem hmem'
      exact hdiff (hmem.trans hmem'.symm)
    have hall : ∀ k ∈ keys, k = key := by
      intro k hk
      have ⟨_, p, hp, hkeq⟩ := hkeys k hk
      simp only [List.mem_cons, List.not_mem_nil, or_false] at hp
      rcases hp with rfl | rfl
      · exact hkeq.trans hkey.symm
      · exact hkeq.trans hkey.symm
    rw [List.eq_replicate_of_mem hall, List.nodup_replicate] at hnodup
    omega

/-- **What the witness threshold counts.** If no key on the list goes by two names, and the
log's by no other name than its own, then an accepted note was signed by as many different
keys as were asked for. On lists of keys that can sign and whose key ids do not collide by
accident, that is the only case in which it always is. -/
theorem threshold_counts_keys :
    (OneName origin log witnesses → CountsKeys sha256 origin log witnesses) ∧
    (S.Correct → S.Separates → Signable sha256 origin log witnesses →
      (CountsKeys sha256 origin log witnesses ↔ OneName origin log witnesses)) := by
  refine ⟨countsKeys_of_oneName, ?_⟩
  intro hS hsep h
  exact ⟨oneName_of_countsKeys hS hsep h, countsKeys_of_oneName⟩

end

/-! ## One witness under two names -/

section Sample

/-- A stand-in for the digest that shows the first bytes of its input. -/
def leadingBytes (bytes : Bytes) : Hash := Vector.ofFn fun i => bytes.getD i 0

def sampleOrigin : Text := ['l', 'o', 'g']

def sampleLog : Sign.SigningIdentity := ⟨Vector.replicate 32 1⟩

def sampleWitness : Sign.SigningIdentity := ⟨Vector.replicate 32 2⟩

def otherWitness : Sign.SigningIdentity := ⟨Vector.replicate 32 3⟩

variable (S : Sign.Primitives)

/-- The witness list, with one key under two names. -/
def twoNames : List (Text × Sign.VerifyingIdentity S) :=
  [(['a'], sampleWitness.verifyingKey S), (['b'], sampleWitness.verifyingKey S)]

/-- The witness list, with two keys. -/
def twoKeys : List (Text × Sign.VerifyingIdentity S) :=
  [(['a'], sampleWitness.verifyingKey S), (['b'], otherWitness.verifyingKey S)]

variable {S}

/-- A name is valid if its bytes are. -/
theorem validName_of_bytes {name : Text} {bytes : Bytes} (hbytes : textBytes name = bytes)
    (hne : name ≠ []) (hlen : bytes.length ≤ maxOriginBytes)
    (hall : bytes.all fun b => (0x21 ≤ b.toNat && b.toNat ≤ 0x7e) && b.toNat ≠ '+'.toNat) :
    validName name = true := by
  subst hbytes
  exact decide_eq_true ⟨hne, hlen, hall⟩

theorem textBytes_log : textBytes sampleOrigin = [108, 111, 103] := by decide

theorem textBytes_a : textBytes ['a'] = [97] := by decide

theorem textBytes_b : textBytes ['b'] = [98] := by decide

/-- With this digest, the first byte of a key id is the first of the name. -/
theorem keyId_leadingBytes (name : Text) (key : Sign.VerifyingIdentity S) :
    (keyId leadingBytes name key)[0] =
      (textBytes name ++ [0x0a] ++ signatureType ++ key.toBytes.toList).getD 0 0 := by
  simp [keyId, leadingBytes]

/-- Entries under two names can sign, whatever their keys are. -/
theorem signable_pair (a b : Sign.SigningIdentity) :
    Signable leadingBytes sampleOrigin (sampleLog.verifyingKey S)
      [(['a'], a.verifyingKey S), (['b'], b.verifyingKey S)] := by
  constructor
  · exact validName_of_bytes textBytes_log (by decide) (by decide) (by simp)
  · intro p hp
    simp only [List.mem_cons, List.not_mem_nil, or_false] at hp
    rcases hp with rfl | rfl | rfl
    · exact ⟨sampleLog, rfl⟩
    · exact ⟨a, rfl⟩
    · exact ⟨b, rfl⟩
  · intro p hp q hq heq
    have hfirst : (keyId leadingBytes p.1 p.2)[0] = (keyId leadingBytes q.1 q.2)[0] := by rw [heq]
    rw [keyId_leadingBytes, keyId_leadingBytes] at hfirst
    simp only [List.mem_cons, List.not_mem_nil, or_false] at hp hq
    rcases hp with rfl | rfl | rfl <;> rcases hq with rfl | rfl | rfl <;>
      first
      | rfl
      | exact absurd hfirst (by simp [textBytes_log, textBytes_a, textBytes_b])

theorem twoNames_signable :
    Signable leadingBytes sampleOrigin (sampleLog.verifyingKey S) (twoNames S) :=
  signable_pair sampleWitness sampleWitness

/-- Both entries sign, and a threshold of two is met. -/
theorem verifyWitnessed_pair (hS : S.Correct) (a b : Sign.SigningIdentity) :
    ∃ text, (emptyCheckpoint sampleOrigin).text = .ok text ∧
      Checkpoint.verifyWitnessed leadingBytes
        (textBytes (partyNote leadingBytes S text
          [(sampleOrigin, sampleLog), (['a'], a), (['b'], b)]).encode) sampleOrigin
        (sampleLog.verifyingKey S) [(['a'], a.verifyingKey S), (['b'], b.verifyingKey S)] 2 =
        .ok (emptyCheckpoint sampleOrigin) := by
  obtain ⟨text, chosen, htext, hcounts, hcovers, -, hverify⟩ :=
    verifyWitnessed_partyNote hS (signable_pair a b) rfl
      (show [((['a'] : Text), a), (['b'], b)].length < maxSignatures from
        show 2 < maxSignatures by decide)
      (by
        intro p hp
        simp only [List.mem_cons, List.not_mem_nil, or_false] at hp
        rcases hp with rfl | rfl
        · exact validName_of_bytes textBytes_a (List.cons_ne_nil _ _) (by decide) (by simp)
        · exact validName_of_bytes textBytes_b (List.cons_ne_nil _ _) (by decide) (by simp))
      (by
        intro p hp
        simp only [List.mem_cons, List.not_mem_nil, or_false] at hp
        rcases hp with rfl | rfl
        · exact List.mem_cons_self
        · exact List.mem_cons_of_mem _ List.mem_cons_self)
  -- an entry is counted for each of the two names, and there are no more
  have hle : chosen.length ≤ 2 := hcounts.sublist.length_le
  obtain ⟨p, hp, hpa⟩ := hcovers (['a'], a) (by simp)
    (show ['a'] ≠ sampleOrigin by decide)
  obtain ⟨q, hq, hqb⟩ := hcovers (['b'], b) (by simp)
    (show ['b'] ≠ sampleOrigin by decide)
  have htwo : chosen.length = 2 := by
    by_contra hne
    obtain ⟨r, hr⟩ : ∃ r, chosen = [r] := by
      apply List.length_eq_one_iff.mp
      have := List.length_pos_of_mem hp
      omega
    rw [hr, List.mem_singleton] at hp hq
    rw [hp] at hpa
    rw [hq, hpa] at hqb
    exact absurd (show ['a'] = ['b'] from hqb) (by decide)
  exact ⟨text, htext, htwo ▸ hverify⟩

/-- A note of the log and of the witness under each of its names. -/
def twoNamesNote (S : Sign.Primitives) (text : Text) : SignedNote :=
  partyNote leadingBytes S text
    [(sampleOrigin, sampleLog), (['a'], sampleWitness), (['b'], sampleWitness)]

/-- One witness listed under two names and signing under both meets a threshold of two, but
there are no two keys. -/
theorem one_key_counts_twice :
    ∃ text, (emptyCheckpoint sampleOrigin).text = .ok text ∧
      Checkpoint.verifyWitnessed leadingBytes
        (textBytes (twoNamesNote Sign.Primitives.keyed text).encode) sampleOrigin
        (sampleLog.verifyingKey Sign.Primitives.keyed) (twoNames _) 2 =
        .ok (emptyCheckpoint sampleOrigin) ∧
      ∀ note, ¬EnoughKeys note (sampleLog.verifyingKey Sign.Primitives.keyed) (twoNames _) 2 := by
  obtain ⟨text, htext, hverify⟩ :=
    verifyWitnessed_pair Sign.Primitives.keyed_correct sampleWitness sampleWitness
  refine ⟨text, htext, hverify, ?_⟩
  intro note ⟨keys, hnodup, hle, hkeys⟩
  have hall : ∀ key ∈ keys, key = sampleWitness.verifyingKey Sign.Primitives.keyed := by
    intro key hkey
    have ⟨_, ⟨name, hin⟩, _⟩ := hkeys key hkey
    simp only [twoNames, List.mem_cons, Prod.mk.injEq, List.not_mem_nil, or_false] at hin
    rcases hin with h | h
    · exact h.2
    · exact h.2
  rw [List.eq_replicate_of_mem hall, List.nodup_replicate] at hnodup
  omega

/-- The keys of different seeds differ. -/
theorem seed_of_verifyingKey {a b : Sign.SigningIdentity}
    (h : a.verifyingKey Sign.Primitives.keyed = b.verifyingKey Sign.Primitives.keyed) :
    a.seed = b.seed := congrArg Sign.VerifyingIdentity.ed25519 h

theorem twoKeys_oneName :
    OneName sampleOrigin (sampleLog.verifyingKey Sign.Primitives.keyed) (twoKeys _) := by
  constructor
  · intro name key hin _ _ hlog
    simp only [twoKeys, List.mem_cons, Prod.mk.injEq, List.not_mem_nil, or_false] at hin
    rcases hin with ⟨-, rfl⟩ | ⟨-, rfl⟩
    · exact absurd (seed_of_verifyingKey hlog) (by decide)
    · exact absurd (seed_of_verifyingKey hlog) (by decide)
  · intro name name' key hin hin' _ _ _ _
    simp only [twoKeys, List.mem_cons, Prod.mk.injEq, List.not_mem_nil, or_false] at hin hin'
    rcases hin with ⟨rfl, rfl⟩ | ⟨rfl, rfl⟩ <;> rcases hin' with ⟨rfl, hkey⟩ | ⟨rfl, hkey⟩
    · rfl
    · exact absurd (seed_of_verifyingKey hkey) (by decide)
    · exact absurd (seed_of_verifyingKey hkey) (by decide)
    · rfl

/-- The theorem at two keys with a name each: their note meets a threshold of two, and there are
two keys. -/
theorem threshold_counts_keys_two_keys :
    OneName sampleOrigin (sampleLog.verifyingKey Sign.Primitives.keyed) (twoKeys _) ∧
      ∃ bytes note, Checkpoint.verifyWitnessed leadingBytes bytes sampleOrigin
          (sampleLog.verifyingKey Sign.Primitives.keyed) (twoKeys _) 2 =
          .ok (emptyCheckpoint sampleOrigin) ∧
        SignedNote.decode bytes = .ok note ∧
        EnoughKeys note (sampleLog.verifyingKey Sign.Primitives.keyed) (twoKeys _) 2 := by
  have hcounts : CountsKeys leadingBytes sampleOrigin
      (sampleLog.verifyingKey Sign.Primitives.keyed) (twoKeys _) :=
    (threshold_counts_keys.2 Sign.Primitives.keyed_correct Sign.Primitives.keyed_separates
      (signable_pair sampleWitness otherWitness)).mpr twoKeys_oneName
  obtain ⟨text, -, hverify⟩ :=
    verifyWitnessed_pair Sign.Primitives.keyed_correct sampleWitness otherWitness
  obtain ⟨note, hdecode, -, henough⟩ := hcounts _ _ _ hverify
  exact ⟨twoKeys_oneName, _, note, hverify, hdecode, henough⟩

end Sample

end HideProtocol.Transparency
