import HideProtocol.Identity.BindingTheorems
import HideProtocol.Identity.History
import HideProtocol.Transparency.Following
import HideProtocol.Transparency.Leaves
import HideProtocol.Transparency.RootTheorems

/-!
# Published identities

What the leaves of a transparency log commit to, put together with the log that holds them. A leaf
has the head of an identity log, or that of an epoch chain, and a head commits to a whole history;
a party that follows the log keeps the leaves it has been shown. So behind one place of a followed
log there is one history, down to its first entry.
-/

namespace HideProtocol.Identity

open Lib Sign Transparency
open Epoch (EpochRecord)

/-- What a leaf logs: a state of an identity, or a state of the epoch chain of an identity. -/
inductive Published (P : Primitives) where
  | identity (log : IdentityLog P)
  | epochs (identityRoot : Hash) (records : List EpochRecord)

namespace Published
variable {P : Primitives}

section
variable (sha256 : Bytes → Hash)

def leaf : Published P → Bytes
  | identity log => identityLeaf log.root (deviceId sha256 log.recovery) log.head
      (UInt64.ofNat log.entries.length)
  | epochs identityRoot records => epochLeaf identityRoot (Epoch.chainHead records)
      (UInt64.ofNat records.length)

/-- Whoever is shown the history accepts it. -/
def Accepted : Published P → Prop
  | identity log => ∃ membership, replay sha256 log.entries log.recovery = .ok membership
  | epochs _ records => Epoch.verify sha256 records = .ok ()

/-- What is hashed from the history to the fields of the leaf. -/
def inputs : Published P → List Bytes
  | identity log => deviceIdInput log.recovery :: linkInputs log.entries
  | epochs _ records => Epoch.linkInputs records

end

variable {sha256 : Bytes → Hash} {x y : Published P}

/-- Accepted logs are not empty, so that equal heads are equal last links. -/
theorem getLast_of_head {log log' : IdentityLog P} {final final' : Membership P}
    (h : replay sha256 log.entries log.recovery = .ok final)
    (h' : replay sha256 log'.entries log'.recovery = .ok final') (hhead : log.head = log'.head) :
    log.entries.getLast?.map Entry.link = log'.entries.getLast?.map Entry.link := by
  have hlast : ∀ (log : IdentityLog P) (final : Membership P),
      replay sha256 log.entries log.recovery = .ok final →
      log.entries.getLast?.map Entry.link = some log.head := by
    intro log final hreplay
    rcases List.eq_nil_or_concat log.entries with hnil | ⟨init, last, hconcat⟩
    · rw [hnil] at hreplay
      cases hreplay
    · simp [IdentityLog.head, hconcat]
  rw [hlast log final h, hlast log' final' h', hhead]

/-- A leaf has one history behind it. -/
theorem eq_of_leaf (hx : x.Accepted sha256) (hy : y.Accepted sha256)
    (h : x.leaf sha256 = y.leaf sha256) : x = y ∨ Collides sha256 (x.inputs ++ y.inputs) := by
  cases x with
  | identity log =>
    cases y with
    | identity log' =>
      obtain ⟨final, hfinal⟩ := hx
      obtain ⟨final', hfinal'⟩ := hy
      have ⟨_, hid, hhead, _⟩ := identityLeaf_inj h
      rcases head_commits sha256 P log.entries log'.entries log.recovery log'.recovery final final'
        hfinal hfinal' (getLast_of_head hfinal hfinal' hhead) with hentries | hc
      · rcases eq_or_collides
          (show deviceIdInput log.recovery ∈ (identity log).inputs ++ (identity log').inputs from
            List.mem_append_left _ List.mem_cons_self)
          (List.mem_append_right _ List.mem_cons_self) hid with hkey | hc
        · left
          obtain ⟨entries, recovery⟩ := log
          obtain ⟨entries', recovery'⟩ := log'
          rw [show entries = entries' from hentries,
            show recovery = recovery' from deviceIdInput_inj hkey]
        · exact Or.inr hc
      · right
        apply hc.mono
        exact List.append_subset.mpr ⟨List.subset_append_of_subset_left _ (List.subset_cons_self _ _),
          List.subset_append_of_subset_right _ (List.subset_cons_self _ _)⟩
    | epochs identityRoot records => exact absurd h (identityLeaf_ne_epochLeaf _ _ _ _ _ _ _)
  | epochs identityRoot records =>
    cases y with
    | identity log => exact absurd h.symm (identityLeaf_ne_epochLeaf _ _ _ _ _ _ _)
    | epochs identityRoot' records' =>
      have ⟨hroot, hhead, hcount⟩ := epochLeaf_inj h
      have hlen : records.length = records'.length := by
        have hmax : Epoch.maxChainEntries < UInt64.size := by decide
        have hx' := Epoch.length_of_verify hx
        have hy' := Epoch.length_of_verify hy
        have hnat := congrArg UInt64.toNat hcount
        rwa [UInt64.toNat_ofNat_of_lt' (by omega), UInt64.toNat_ofNat_of_lt' (by omega)] at hnat
      rcases Epoch.eq_of_chainHead hx hy (List.subset_append_left _ _)
        (List.subset_append_right _ _) hlen hhead with heq | hc
      · left
        rw [hroot, heq]
      · exact Or.inr hc

end Published

/-- Two nodes with one parent are two inputs with one digest. -/
theorem collides_of_collision {sha256 : Bytes → Hash} {pairs : List (Hash × Hash)}
    (h : Merkle.Collision (nodeHash sha256) pairs) : Collides sha256 (pairs.map nodeInput) := by
  obtain ⟨p, hp, q, hq, hne, hnode⟩ := h
  exact ⟨nodeInput p, List.mem_map_of_mem hp, nodeInput q, List.mem_map_of_mem hq,
    fun heq => hne (nodeInput_inj heq), hnode⟩

/-- Everything hashed by a party that follows a log and is shown two leaves of it, first to last. -/
def followedInputs {P : Primitives} (sha256 : Bytes → Hash) (head : TreeHead)
    (steps : List (ConsistencyProof × Hash)) (shown later : InclusionProof) (x y : Published P) :
    List Bytes :=
  (shownPairs sha256 shown (leafHash sha256 (x.leaf sha256)) ++ followPairs sha256 head steps ++
      shownPairs sha256 later (leafHash sha256 (y.leaf sha256))).map nodeInput ++
    ([leafPrefix :: x.leaf sha256, leafPrefix :: y.leaf sha256] ++ (x.inputs ++ y.inputs))

/-- **A published history stands.** What is shown at one place of a followed log, then and later, is
one and the same history. -/
theorem published_history_stands (sha256 : Bytes → Hash) (P : Primitives) (head last : TreeHead)
    (steps : List (ConsistencyProof × Hash)) (shown later : InclusionProof) (x y : Published P)
    (hfollow : follow sha256 head steps = .ok last) (hx : x.Accepted sha256)
    (hy : y.Accepted sha256) (hplace : later.index = shown.index)
    (hshownSize : shown.size = head.size) (hlaterSize : later.size = last.size)
    (hshown : verifyInclusion sha256 shown (leafHash sha256 (x.leaf sha256)) head.root = .ok ())
    (hlater : verifyInclusion sha256 later (leafHash sha256 (y.leaf sha256)) last.root = .ok ()) :
    x = y ∨ Collides sha256 (followedInputs sha256 head steps shown later x y) := by
  rcases (Transparency.leaves_of_follow hfollow hshownSize hshown).2 later _ hplace hlaterSize
    hlater with hleaf | hc
  · rcases eq_or_collides
      (show (leafPrefix :: y.leaf sha256) ∈ followedInputs sha256 head steps shown later x y from
        List.mem_append_right _ (List.mem_append_left _ (List.mem_cons_of_mem _ List.mem_cons_self)))
      (List.mem_append_right _ (List.mem_append_left _ List.mem_cons_self)) hleaf with hinput | hc
    · rcases Published.eq_of_leaf hx hy (List.cons.inj hinput).2.symm with heq | hc
      · exact Or.inl heq
      · exact Or.inr (hc.mono
          (List.subset_append_of_subset_right _ (List.subset_append_right _ _)))
    · exact Or.inr hc
  · exact Or.inr ((collides_of_collision hc).mono (List.subset_append_left _ _))

namespace Sample

/-- What the digest leaves of a log of four entries. -/
theorem leaf_of_replay {log : IdentityLog Primitives.keyed} {final : Membership Primitives.keyed}
    (h : replay digest log.entries (key 9) = .ok final) (hrecovery : log.recovery = key 9)
    (hlen : log.entries.length = 4) :
    (Published.identity log).leaf digest = identityLeaf (device 0) (device 9) (device 3) 4 := by
  have hfirst : log.entries[0]? = some log.entries[0] := List.getElem?_eq_getElem (by omega)
  have hroot : log.root = device 0 := by
    rw [IdentityLog.root, List.head?_eq_getElem?, hfirst]
    exact link_of_replay h hfirst
  have hlast : log.entries[3]? = some log.entries[3] := List.getElem?_eq_getElem (by omega)
  have hhead : log.head = device 3 := by
    rw [IdentityLog.head, List.getLast?_eq_getElem?, hlen, hlast]
    exact link_of_replay h hlast
  rw [Published.leaf, hroot, hhead, hrecovery, hlen, deviceId_key]
  rfl

end Sample

/-- The theorem at the two histories of the sample identity that have one head, published first in a
log that grows by a second leaf: the log shows one, and after it grew the other. -/
theorem published_history_stands_two_histories :
    let a := leafHash Sample.digest (identityLeaf (Sample.device 0) (Sample.device 9)
      (Sample.device 3) 4)
    let b := leafHash Sample.digest [2, 3]
    let steps := [((⟨1, 2, [b]⟩ : ConsistencyProof), nodeHash Sample.digest a b)]
    follow Sample.digest ⟨1, a⟩ steps = .ok ⟨2, nodeHash Sample.digest a b⟩ ∧
      (Published.identity (Sample.log 3)).Accepted Sample.digest ∧
      (Published.identity Sample.otherLog).Accepted Sample.digest ∧
      (∀ i, 0 < i → i < 4 → (Sample.log 3).entries[i]? ≠ Sample.otherLog.entries[i]?) ∧
      Collides Sample.digest (followedInputs Sample.digest ⟨1, a⟩ steps ⟨0, 1, []⟩ ⟨0, 2, [b]⟩
        (.identity (Sample.log 3)) (.identity Sample.otherLog)) := by
  intro a b steps
  obtain ⟨⟨final, hfinal⟩, -⟩ := Sample.run_otherLog
  have hleaf := Sample.leaf_of_replay (Sample.replay_log 3) (Sample.recovery_log 3)
    (Sample.length_log (by omega))
  have hleaf' := Sample.leaf_of_replay hfinal Sample.recovery_otherLog Sample.length_otherLog
  have hx : (Published.identity (Sample.log 3)).Accepted Sample.digest := by
    refine ⟨(Sample.log 3).membership Sample.digest, ?_⟩
    rw [Sample.recovery_log]
    exact Sample.replay_log 3
  have hy : (Published.identity Sample.otherLog).Accepted Sample.digest := by
    refine ⟨final, ?_⟩
    rw [Sample.recovery_otherLog]
    exact hfinal
  have hsplit : Merkle.splitPoint 2 = 1 := by simp [Merkle.splitPoint]
  have hturns : inclusionTurns 0 2 = [true] := by
    rw [inclusionTurns_left (by omega) (by omega), hsplit, inclusionTurns_leaf (by omega)]
  have hshown : verifyInclusion Sample.digest ⟨0, 1, []⟩ a a = .ok () := by
    rw [verifyInclusion_eq_ok, show (1 : UInt64).toNat = 1 from rfl, inclusionTurns_leaf le_rfl]
    exact ⟨by decide, by decide, rfl, rfl⟩
  have hlater : verifyInclusion Sample.digest ⟨0, 2, [b]⟩ a (nodeHash Sample.digest a b) =
      .ok () := by
    rw [verifyInclusion_eq_ok]
    rw [show (2 : UInt64).toNat = 2 from rfl, show (0 : UInt64).toNat = 0 from rfl, hturns]
    exact ⟨show 1 ≤ 64 by omega, by decide, rfl, rfl⟩
  have hfollow := follow_second Sample.digest a b
  refine ⟨hfollow, hx, hy, fun i => Sample.otherLog_ne, ?_⟩
  rcases published_history_stands Sample.digest Primitives.keyed ⟨1, a⟩
    ⟨2, nodeHash Sample.digest a b⟩ steps ⟨0, 1, []⟩ ⟨0, 2, [b]⟩ _ _ hfollow hx hy rfl rfl rfl
    (by rw [hleaf]; exact hshown) (by rw [hleaf']; exact hlater) with heq | hc
  · have hentries : (Sample.log 3).entries = Sample.otherLog.entries :=
      congrArg IdentityLog.entries (Published.identity.inj heq)
    exact absurd (congrArg (·[1]?) hentries) (Sample.otherLog_ne (by omega) (by omega))
  · exact hc

end HideProtocol.Identity
