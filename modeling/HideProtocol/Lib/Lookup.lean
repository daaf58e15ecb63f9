import Mathlib.Data.List.Nodup
import HideProtocol.Lib.Bytes

/-!
# Maps by lookup

What an update does to a lookup, and maps that are the same up to a renaming of their keys and a
translation of their values. A renaming is one to one and covers every key of the second map, so
that both maps have the same keys, values and number of entries.
-/

namespace HideProtocol.Lib

section Lookup
variable {K V : Type} [Ord K] {id : K}

theorem compare_key [Std.LawfulEqOrd K] {k : K} : compare k id = .eq ↔ id = k := by
  rw [Std.LawfulEqCmp.compare_eq_iff_eq, eq_comm]

variable [Std.TransOrd K] {map : Std.ExtTreeMap K V}

theorem mem_iff_lookup : id ∈ map ↔ ∃ v, map[id]? = some v := by
  rw [Std.ExtTreeMap.mem_iff_isSome_getElem?, Option.isSome_iff_exists]

variable [Std.LawfulEqOrd K] [DecidableEq K]

theorem lookup_insert {k : K} {v : V} :
    (map.insert k v)[id]? = if id = k then some v else map[id]? := by
  rw [Std.ExtTreeMap.getElem?_insert]
  simp only [compare_key]

theorem lookup_erase {k : K} : (map.erase k)[id]? = if id = k then none else map[id]? := by
  rw [Std.ExtTreeMap.getElem?_erase]
  simp only [compare_key]

/-- Every key of a list is marked with one value. -/
theorem lookup_foldl_insert (keys : List K) (v : V) :
    (keys.foldl (fun map key => map.insert key v) map)[id]? =
      if id ∈ keys then some v else map[id]? := by
  induction keys generalizing map with
  | nil => rfl
  | cons key keys ih =>
    rw [List.foldl_cons, ih, lookup_insert]
    by_cases hmem : id ∈ keys
    · rw [if_pos hmem, if_pos (List.mem_cons_of_mem _ hmem)]
    · rw [if_neg hmem]
      by_cases heq : id = key
      · rw [if_pos heq, if_pos (by rw [heq]; exact List.mem_cons_self)]
      · rw [if_neg heq, if_neg (by simp [heq, hmem])]

end Lookup

/-! ## Renamed maps -/

section Renamed
variable {K K' V W : Type} [Ord K] [Std.TransOrd K] [Ord K'] [Std.TransOrd K'] {name : K → K'}
  {view : V → W}

/-- `map'` is `map` with its keys renamed by `name` and its values translated by `view`. -/
structure Renamed (name : K → K') (view : V → W) (map : Std.ExtTreeMap K V)
    (map' : Std.ExtTreeMap K' W) : Prop where
  lookup : ∀ k, map'[name k]? = map[k]?.map view
  keys : ∀ k' ∈ map', ∃ k, name k = k'

namespace Renamed
variable {map : Std.ExtTreeMap K V} {map' : Std.ExtTreeMap K' W}

theorem empty : Renamed name view (∅ : Std.ExtTreeMap K V) (∅ : Std.ExtTreeMap K' W) where
  lookup k := by simp
  keys k' h := by simp at h

theorem mem_iff (h : Renamed name view map map') {k : K} : name k ∈ map' ↔ k ∈ map := by
  rw [Std.ExtTreeMap.mem_iff_isSome_getElem?, h.lookup, Option.isSome_map,
    ← Std.ExtTreeMap.mem_iff_isSome_getElem?]

variable [Std.LawfulEqOrd K] [Std.LawfulEqOrd K']

theorem size_eq (hname : Function.Injective name) (h : Renamed name view map map') :
    map'.size = map.size := by
  have hperm : List.Perm map'.keys (map.keys.map name) := by
    apply (List.perm_ext_iff_of_nodup Std.ExtTreeMap.nodup_keys
      (Std.ExtTreeMap.nodup_keys.map hname)).mpr
    intro k'
    rw [Std.ExtTreeMap.mem_keys, List.mem_map]
    constructor
    · intro hk'
      obtain ⟨k, rfl⟩ := h.keys k' hk'
      exact ⟨k, Std.ExtTreeMap.mem_keys.mpr (h.mem_iff.mp hk'), rfl⟩
    · rintro ⟨k, hk, rfl⟩
      exact h.mem_iff.mpr (Std.ExtTreeMap.mem_keys.mp hk)
  rw [← Std.ExtTreeMap.length_keys, ← Std.ExtTreeMap.length_keys, hperm.length_eq, List.length_map]

variable [DecidableEq K] [DecidableEq K']

theorem insert (hname : Function.Injective name) (h : Renamed name view map map') (k : K) (v : V) :
    Renamed name view (map.insert k v) (map'.insert (name k) (view v)) where
  lookup k' := by
    rw [lookup_insert, lookup_insert]
    by_cases heq : k' = k
    · rw [if_pos (congrArg name heq), if_pos heq]
      rfl
    · rw [if_neg fun hsame => heq (hname hsame), if_neg heq]
      exact h.lookup k'
  keys k' hk' := by
    rw [Std.ExtTreeMap.mem_insert, compare_key] at hk'
    rcases hk' with hk' | hk'
    · exact ⟨k, hk'.symm⟩
    · exact h.keys k' hk'

theorem erase (hname : Function.Injective name) (h : Renamed name view map map') (k : K) :
    Renamed name view (map.erase k) (map'.erase (name k)) where
  lookup k' := by
    rw [lookup_erase, lookup_erase]
    by_cases heq : k' = k
    · rw [if_pos (congrArg name heq), if_pos heq]
      rfl
    · rw [if_neg fun hsame => heq (hname hsame), if_neg heq]
      exact h.lookup k'
  keys k' hk' := h.keys k' (Std.ExtTreeMap.mem_of_mem_erase hk')

/-- Marking every key of one pair of maps in another. -/
theorem mark {U X : Type} {seen : U → X} {marked : Std.ExtTreeMap K U}
    {marked' : Std.ExtTreeMap K' X} (hmarked : Renamed name seen marked marked')
    (h : Renamed name view map map') (u : U) :
    Renamed name seen (map.keys.foldl (fun marked key => marked.insert key u) marked)
      (map'.keys.foldl (fun marked key => marked.insert key (seen u)) marked') where
  lookup k := by
    rw [lookup_foldl_insert, lookup_foldl_insert]
    simp only [Std.ExtTreeMap.mem_keys, h.mem_iff]
    by_cases hmem : k ∈ map
    · rw [if_pos hmem, if_pos hmem]
      rfl
    · rw [if_neg hmem, if_neg hmem]
      exact hmarked.lookup k
  keys k' hk' := by
    rw [mem_iff_lookup, lookup_foldl_insert] at hk'
    obtain ⟨x, hx⟩ := hk'
    by_cases hmem : k' ∈ map'.keys
    · exact h.keys k' (Std.ExtTreeMap.mem_keys.mp hmem)
    · rw [if_neg hmem] at hx
      exact hmarked.keys k' (mem_iff_lookup.mpr ⟨x, hx⟩)

end Renamed

end Renamed

end HideProtocol.Lib
