import Mathlib.Data.List.Basic
import Mathlib.Data.Nat.Log
import Mathlib.Order.Bounds.Basic
import Mathlib.Tactic.Ring

/-!
# Merkle trees split at a power of two

The tree of RFC 6962 over an arbitrary hash type: `node` combines two children and `empty`
is the root of the empty tree. A list of `n ≥ 2` leaves splits at the largest power of two
strictly below `n`, so the shape depends on the size alone.

Nothing is assumed about `node`. A theorem that needs two roots to have the same children
concludes with a `Collision` among an explicit list of child pairs instead: since the hash
type may be finite, some collision always exists, and only one among the pairs that were
really hashed says anything.
-/

namespace HideProtocol.Lib.Merkle

/-! ## The split point -/

/-- The largest power of two strictly below `n`, for `n ≥ 2`. -/
def splitPoint (n : ℕ) : ℕ := 2 ^ Nat.log 2 (n - 1)

theorem splitPoint_pos (n : ℕ) : 0 < splitPoint n := Nat.two_pow_pos _

theorem splitPoint_lt {n : ℕ} (h : 2 ≤ n) : splitPoint n < n := by
  have hle : splitPoint n ≤ n - 1 := Nat.pow_log_le_self 2 (by omega)
  omega

theorem le_two_mul_splitPoint {n : ℕ} : n ≤ 2 * splitPoint n := by
  have hlt : n - 1 < 2 ^ (Nat.log 2 (n - 1) + 1) := Nat.lt_pow_succ_log_self (by norm_num) _
  have hsucc : 2 ^ (Nat.log 2 (n - 1) + 1) = 2 * splitPoint n := by
    rw [splitPoint]
    ring
  omega

/-- Both halves of a tree of at most `2 ^ (d + 1)` leaves have at most `2 ^ d`. -/
theorem splitPoint_le_pow {n d : ℕ} (h2 : 2 ≤ n) (h : n ≤ 2 ^ (d + 1)) : splitPoint n ≤ 2 ^ d := by
  have hlog : Nat.log 2 (n - 1) < d + 1 := Nat.log_lt_of_lt_pow (by omega) (by omega)
  exact Nat.pow_le_pow_right (by norm_num) (by omega)

theorem isGreatest_splitPoint {n : ℕ} (h : 2 ≤ n) :
    IsGreatest {p | (∃ k, p = 2 ^ k) ∧ p < n} (splitPoint n) := by
  refine ⟨⟨⟨_, rfl⟩, splitPoint_lt h⟩, ?_⟩
  rintro p ⟨⟨k, rfl⟩, hlt⟩
  have hle : k ≤ Nat.log 2 (n - 1) := Nat.le_log_of_pow_le (by norm_num) (by omega)
  exact Nat.pow_le_pow_right (by norm_num) hle

/-- A half of a tree is a level lower than the tree. -/
theorem clog_lt_clog {m n : ℕ} (h : 2 ≤ n) (hm : m ≤ splitPoint n) : Nat.clog 2 m < Nat.clog 2 n := by
  have hpos : 0 < Nat.clog 2 n := Nat.clog_pos (by norm_num) h
  have hpow : n ≤ 2 ^ (Nat.clog 2 n - 1 + 1) := by
    rw [Nat.sub_add_cancel hpos]
    exact Nat.le_pow_clog (by norm_num) n
  have hhalf : m ≤ 2 ^ (Nat.clog 2 n - 1) := hm.trans (splitPoint_le_pow h hpow)
  have hle := Nat.clog_le_of_le_pow hhalf
  omega

/-- Between the split point of `n` and `n` itself, the split point is the same: a prefix
that reaches past it splits where the whole tree does. -/
theorem splitPoint_between {m n : ℕ} (h₁ : splitPoint n < m) (h₂ : m ≤ n) :
    splitPoint m = splitPoint n := by
  have hn := @le_two_mul_splitPoint n
  have hlog : Nat.log 2 (m - 1) = Nat.log 2 (n - 1) := by
    apply Nat.log_eq_of_pow_le_of_lt_pow
    · show splitPoint n ≤ m - 1
      omega
    · have hsucc : 2 ^ (Nat.log 2 (n - 1) + 1) = 2 * splitPoint n := by
        rw [splitPoint]
        ring
      omega
  rw [splitPoint, hlog, splitPoint]

/-! ## Roots and the pairs they hash -/

section Tree
variable {H : Type} (node : H → H → H) (empty : H)

/-- The root of the tree over `leaves`. -/
def root (leaves : List H) : H :=
  match leaves with
  | [] => empty
  | [leaf] => leaf
  | a :: b :: rest =>
    let split := splitPoint (a :: b :: rest).length
    node (root ((a :: b :: rest).take split)) (root ((a :: b :: rest).drop split))
termination_by leaves.length
decreasing_by
  · have h := @splitPoint_lt (a :: b :: rest).length (by simp)
    rw [List.length_take]
    omega
  · have h := splitPoint_pos (a :: b :: rest).length
    rw [List.length_drop]
    simp only [List.length_cons] at h ⊢
    omega

/-- The child pairs hashed while computing `root`. -/
def nodes (leaves : List H) : List (H × H) :=
  match leaves with
  | [] => []
  | [_] => []
  | a :: b :: rest =>
    let split := splitPoint (a :: b :: rest).length
    (root node empty ((a :: b :: rest).take split),
      root node empty ((a :: b :: rest).drop split)) ::
    (nodes ((a :: b :: rest).take split) ++ nodes ((a :: b :: rest).drop split))
termination_by leaves.length
decreasing_by
  · have h := @splitPoint_lt (a :: b :: rest).length (by simp)
    rw [List.length_take]
    omega
  · have h := splitPoint_pos (a :: b :: rest).length
    rw [List.length_drop]
    simp only [List.length_cons] at h ⊢
    omega

theorem root_singleton (leaf : H) : root node empty [leaf] = leaf := by
  rw [root]

/-- The defining equation for two leaves or more, in terms of the two halves. -/
theorem root_split {leaves : List H} (h : 2 ≤ leaves.length) :
    root node empty leaves =
      node (root node empty (leaves.take (splitPoint leaves.length)))
        (root node empty (leaves.drop (splitPoint leaves.length))) := by
  match leaves, h with
  | a :: b :: rest, _ => rw [root]

theorem nodes_split {leaves : List H} (h : 2 ≤ leaves.length) :
    nodes node empty leaves =
      (root node empty (leaves.take (splitPoint leaves.length)),
        root node empty (leaves.drop (splitPoint leaves.length))) ::
      (nodes node empty (leaves.take (splitPoint leaves.length)) ++
        nodes node empty (leaves.drop (splitPoint leaves.length))) := by
  match leaves, h with
  | a :: b :: rest, _ => rw [nodes]

/-! ## Collisions -/

/-- Two different pairs of children among `pairs` have the same parent. -/
def Collision (pairs : List (H × H)) : Prop :=
  ∃ p ∈ pairs, ∃ q ∈ pairs, p ≠ q ∧ node p.1 p.2 = node q.1 q.2

variable {node empty}

/-- Equal parents have equal children, or their children collide. -/
theorem node_inj_or_collision {pairs : List (H × H)} {a b c d : H} (h₁ : (a, b) ∈ pairs)
    (h₂ : (c, d) ∈ pairs) (h : node a b = node c d) : (a = c ∧ b = d) ∨ Collision node pairs := by
  by_cases heq : (a, b) = (c, d)
  · left
    simpa using heq
  · right
    exact ⟨_, h₁, _, h₂, heq, h⟩

/-- Between lists of one length, equal roots mean equal lists, or a collision among any pairs
that include those hashed for the two. -/
theorem root_inj_or_collision {xs ys : List H} {pairs : List (H × H)}
    (hlen : xs.length = ys.length) (h : root node empty xs = root node empty ys)
    (hxs : nodes node empty xs ⊆ pairs) (hys : nodes node empty ys ⊆ pairs) :
    xs = ys ∨ Collision node pairs := by
  induction hn : xs.length using Nat.strongRecOn generalizing xs ys with
  | ind n ih =>
    subst hn
    by_cases h2 : 2 ≤ xs.length
    · have h2' : 2 ≤ ys.length := by omega
      have hlt := splitPoint_lt h2
      have hpos := splitPoint_pos xs.length
      have hky : splitPoint ys.length = splitPoint xs.length := by rw [hlen]
      rw [nodes_split node empty h2] at hxs
      rw [nodes_split node empty h2', hky] at hys
      rw [root_split node empty h2, root_split node empty h2', hky] at h
      set k := splitPoint xs.length
      obtain ⟨htopx, hxs⟩ := List.cons_subset.mp hxs
      obtain ⟨htopy, hys⟩ := List.cons_subset.mp hys
      obtain ⟨hxl, hxr⟩ := List.append_subset.mp hxs
      obtain ⟨hyl, hyr⟩ := List.append_subset.mp hys
      -- the children agree, or the two parents' pairs already collide
      rcases node_inj_or_collision htopx htopy h with ⟨hl, hr⟩ | hc
      · have hL := ih (xs.take k).length (by rw [List.length_take]; omega)
          (by rw [List.length_take, List.length_take]; omega) hl hxl hyl rfl
        have hR := ih (xs.drop k).length (by rw [List.length_drop]; omega)
          (by rw [List.length_drop, List.length_drop]; omega) hr hxr hyr rfl
        rcases hL with hL | hc
        · rcases hR with hR | hc
          · left
            rw [← List.take_append_drop k xs, ← List.take_append_drop k ys, hL, hR]
          · right
            exact hc
        · right
          exact hc
      · right
        exact hc
    · left
      match xs, ys, hlen, h2 with
      | [], [], _, _ => rfl
      | [x], [y], _, _ =>
        rw [root_singleton, root_singleton] at h
        rw [h]
      | _ :: _ :: _, _, _, h2 => exact absurd (by simp) h2

end Tree

end HideProtocol.Lib.Merkle
