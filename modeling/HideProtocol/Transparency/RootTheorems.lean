import HideProtocol.Lib.Collision
import HideProtocol.Transparency.ProverTheorems

/-!
# A root commits to the whole history

The size of a log is not hashed into its root. What keeps two histories of different lengths
apart is the first byte of what was hashed last: nothing for the empty log, `leafPrefix` for a
single entry, `nodePrefix` for two or more. `rootInput` is that input, and two logs with one
root have one `rootInput` or collide, so they have the same shape at the top and, by induction,
all the way down.
-/

namespace HideProtocol.Transparency

open Lib

variable {sha256 : Bytes → Hash}

variable (sha256) in
/-- The log built by appending `entries` in order to an empty one. -/
def logOf (entries : List Bytes) : TransparencyLog :=
  entries.foldl (fun log data => (log.append sha256 data).1) {}

theorem leaves_foldl_append (log : TransparencyLog) (entries : List Bytes) :
    (entries.foldl (fun log data => (log.append sha256 data).1) log).leaves =
      log.leaves ++ entries.map (leafHash sha256) := by
  induction entries generalizing log with
  | nil => rw [List.map_nil, List.append_nil, List.foldl_nil]
  | cons data entries ih =>
    rw [List.foldl_cons, ih, TransparencyLog.append, List.map_cons, List.append_assoc]
    rfl

theorem leaves_logOf (entries : List Bytes) :
    (logOf sha256 entries).leaves = entries.map (leafHash sha256) := by
  rw [logOf, leaves_foldl_append]
  rfl

/-! ## What is hashed for a root -/

/-- The bytes hashed for a parent. -/
def nodeInput (pair : Hash × Hash) : Bytes := nodePrefix :: (pair.1.toList ++ pair.2.toList)

variable (sha256) in
/-- Every byte string hashed on the way from `entries` to the root: the empty string for an
empty log, a leaf for each entry and a node for each pair of subtrees. -/
def rootInputs (entries : List Bytes) : List Bytes :=
  (if entries = [] then [[]] else []) ++ entries.map (leafPrefix :: ·) ++
    (Merkle.nodes (nodeHash sha256) (sha256 []) (entries.map (leafHash sha256))).map nodeInput

variable (sha256) in
/-- The byte string whose digest is the root. -/
def rootInput (entries : List Bytes) : Bytes :=
  match entries with
  | [] => []
  | [data] => leafPrefix :: data
  | a :: b :: rest =>
    let split := Merkle.splitPoint (a :: b :: rest).length
    nodeInput (rootOf sha256 (((a :: b :: rest).take split).map (leafHash sha256)),
      rootOf sha256 (((a :: b :: rest).drop split).map (leafHash sha256)))

theorem rootInput_split {entries : List Bytes} (h2 : 2 ≤ entries.length) :
    rootInput sha256 entries =
      nodeInput
        (rootOf sha256 ((entries.take (Merkle.splitPoint entries.length)).map (leafHash sha256)),
          rootOf sha256
            ((entries.drop (Merkle.splitPoint entries.length)).map (leafHash sha256))) := by
  match entries, h2 with
  | a :: b :: rest, _ => rfl

theorem rootOf_eq_sha256 (entries : List Bytes) :
    rootOf sha256 (entries.map (leafHash sha256)) = sha256 (rootInput sha256 entries) := by
  match entries with
  | [] =>
    rw [List.map_nil, rootOf, Merkle.root]
    rfl
  | [data] =>
    rw [List.map_singleton, rootOf, Merkle.root_singleton]
    rfl
  | a :: b :: rest =>
    rw [rootOf_split (by simp), List.length_map, rootInput_split (by simp), List.map_take,
      List.map_drop]
    rfl

theorem rootInput_mem (entries : List Bytes) :
    rootInput sha256 entries ∈ rootInputs sha256 entries := by
  match entries with
  | [] => exact List.mem_cons_self
  | [data] => simp [rootInput, rootInputs]
  | a :: b :: rest =>
    have h2 : 2 ≤ ((a :: b :: rest).map (leafHash sha256)).length := by simp
    rw [rootInput_split (by simp), rootInputs, Merkle.nodes_split _ _ h2, List.length_map,
      List.map_cons, ← List.map_take, ← List.map_drop]
    exact List.mem_append_right _ List.mem_cons_self

/-- What is hashed for either half is hashed for the whole. -/
theorem rootInputs_half {entries : List Bytes} (h2 : 2 ≤ entries.length) :
    rootInputs sha256 (entries.take (Merkle.splitPoint entries.length)) ⊆
        rootInputs sha256 entries ∧
      rootInputs sha256 (entries.drop (Merkle.splitPoint entries.length)) ⊆
        rootInputs sha256 entries := by
  have hlt := Merkle.splitPoint_lt h2
  have hpos := Merkle.splitPoint_pos entries.length
  have hnodes := Merkle.nodes_split (nodeHash sha256) (sha256 [])
    (show 2 ≤ (entries.map (leafHash sha256)).length by rwa [List.length_map])
  rw [List.length_map, ← List.map_take, ← List.map_drop] at hnodes
  have hleft : entries.take (Merkle.splitPoint entries.length) ≠ [] := by
    apply List.ne_nil_of_length_pos
    rw [List.length_take]
    omega
  have hright : entries.drop (Merkle.splitPoint entries.length) ≠ [] := by
    apply List.ne_nil_of_length_pos
    rw [List.length_drop]
    omega
  unfold rootInputs
  rw [if_neg hleft, if_neg hright, hnodes, List.nil_append, List.nil_append, List.map_cons,
    List.map_append]
  constructor
  · intro input hinput
    rcases List.mem_append.mp hinput with hleaf | hnode
    · apply List.mem_append_left
      apply List.mem_append_right
      exact List.map_subset _ (List.take_subset _ _) hleaf
    · apply List.mem_append_right
      exact List.mem_cons_of_mem _ (List.mem_append_left _ hnode)
  · intro input hinput
    rcases List.mem_append.mp hinput with hleaf | hnode
    · apply List.mem_append_left
      apply List.mem_append_right
      exact List.map_subset _ (List.drop_subset _ _) hleaf
    · apply List.mem_append_right
      exact List.mem_cons_of_mem _ (List.mem_append_right _ hnode)

theorem nodeInput_inj {p q : Hash × Hash} (h : nodeInput p = nodeInput q) : p = q := by
  have hbytes := (List.cons.inj h).2
  have hlen : p.1.toList.length = q.1.toList.length := by
    rw [Vector.length_toList, Vector.length_toList]
  have ⟨hl, hr⟩ := List.append_inj hbytes hlen
  exact Prod.ext (Vector.toList_inj.mp hl) (Vector.toList_inj.mp hr)

/-! ## The root -/

/-- Two histories with one root are equal, or two of `inputs`, which holds everything hashed
for the two, collide. -/
theorem rootOf_commits {xs ys inputs : List Bytes} (hxs : rootInputs sha256 xs ⊆ inputs)
    (hys : rootInputs sha256 ys ⊆ inputs)
    (h : rootOf sha256 (xs.map (leafHash sha256)) = rootOf sha256 (ys.map (leafHash sha256))) :
    xs = ys ∨ Collides sha256 inputs := by
  induction hn : xs.length using Nat.strongRecOn generalizing xs ys with
  | ind n ih =>
    subst hn
    rw [rootOf_eq_sha256, rootOf_eq_sha256] at h
    rcases eq_or_collides (hxs (rootInput_mem xs)) (hys (rootInput_mem ys)) h with htop | hc
    · by_cases h2 : 2 ≤ xs.length
      · by_cases h2' : 2 ≤ ys.length
        · -- both are nodes: their halves have equal roots
          rw [rootInput_split h2, rootInput_split h2'] at htop
          have ⟨hl, hr⟩ := Prod.mk.injEq .. ▸ nodeInput_inj htop
          have ⟨hxl, hxr⟩ := @rootInputs_half sha256 xs h2
          have ⟨hyl, hyr⟩ := @rootInputs_half sha256 ys h2'
          have hlt := Merkle.splitPoint_lt h2
          have hpos := Merkle.splitPoint_pos xs.length
          have hleft := ih _ (by rw [List.length_take]; omega) (List.Subset.trans hxl hxs)
            (List.Subset.trans hyl hys) hl rfl
          have hright := ih _ (by rw [List.length_drop]; omega) (List.Subset.trans hxr hxs)
            (List.Subset.trans hyr hys) hr rfl
          rcases hleft with hleft | hc
          · rcases hright with hright | hc
            · left
              rw [← List.take_append_drop (Merkle.splitPoint xs.length) xs, hleft, hright,
                List.take_append_drop]
            · right
              exact hc
          · right
            exact hc
        · -- a node is neither nothing nor a leaf
          rw [rootInput_split h2] at htop
          match ys, h2' with
          | [], _ => exact absurd htop (by simp [nodeInput, rootInput])
          | [y], _ => exact absurd (List.cons.inj htop).1 (by decide)
          | _ :: _ :: _, h2' => exact absurd (by simp) h2'
      · match xs, ys, h2 with
        | [], [], _ =>
          left
          rfl
        | [], [y], _ => exact absurd htop (by simp [rootInput])
        | [], a :: b :: rest, _ => exact absurd htop (by simp [rootInput, nodeInput])
        | [x], [], _ => exact absurd htop (by simp [rootInput])
        | [x], [y], _ =>
          left
          rw [(List.cons.inj htop).2]
        | [x], a :: b :: rest, _ => exact absurd (List.cons.inj htop).1 (by decide)
        | _ :: _ :: _, _, h2 => exact absurd (by simp) h2
    · right
      exact hc

/-- **A root commits to the whole history, whatever its size.** Two logs with the same root were
built from the same entries, unless two different byte strings among those hashed for the two
roots have the same digest. -/
theorem root_commits (sha256 : Bytes → Hash) (xs ys : List Bytes)
    (h : (logOf sha256 xs).root sha256 = (logOf sha256 ys).root sha256) :
    xs = ys ∨ Collides sha256 (rootInputs sha256 xs ++ rootInputs sha256 ys) := by
  rw [TransparencyLog.root, TransparencyLog.root, leaves_logOf, leaves_logOf] at h
  exact rootOf_commits (List.subset_append_left _ _) (List.subset_append_right _ _) h

/-- A digest that reads only the domain prefix does not tell two histories of two entries apart,
and the theorem exhibits the leaves it confuses. -/
theorem root_commits_two :
    let sha : Bytes → Hash := fun bytes => Vector.replicate 32 (bytes.headD 2)
    let xs : List Bytes := [[1], [2]]
    let ys : List Bytes := [[1], [3]]
    (logOf sha xs).root sha = (logOf sha ys).root sha ∧
      (xs = ys ∨ Collides sha (rootInputs sha xs ++ rootInputs sha ys)) := by
  intro sha xs ys
  have hroot : (logOf sha xs).root sha = (logOf sha ys).root sha := by
    rw [TransparencyLog.root, TransparencyLog.root, leaves_logOf, leaves_logOf, rootOf_eq_sha256,
      rootOf_eq_sha256]
    rfl
  exact ⟨hroot, root_commits sha xs ys hroot⟩

end HideProtocol.Transparency
