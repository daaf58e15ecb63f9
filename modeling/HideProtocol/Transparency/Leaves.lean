import HideProtocol.Transparency.Tree

/-!
# Leaves

The leaves carry links, never encoded logs, so a legacy log and its re-encoding are one leaf. Each
of the two layouts has one length and fields of fixed widths.
-/

namespace HideProtocol.Transparency

open Lib

def identityLeafLabel : Bytes := utf8 "HIDE/1.0 identity leaf"
def epochLeafLabel : Bytes := utf8 "HIDE/1.0 epoch leaf"

/-- The leaf that logs one state of an identity: which identity (its root link), which recovery key
it binds (by device id), and which history (the head link and entry count). -/
def identityLeaf (root recoveryId head : Hash) (entries : UInt64) : Bytes :=
  identityLeafLabel ++ root.toList ++ recoveryId.toList ++ head.toList ++ beBytes 8 entries.toNat

/-- The leaf that logs one state of an identity's epoch chain. -/
def epochLeaf (identityRoot chainHead : Hash) (epochs : UInt64) : Bytes :=
  epochLeafLabel ++ identityRoot.toList ++ chainHead.toList ++ beBytes 8 epochs.toNat

/-! ## Layouts -/

theorem length_identityLeaf (root recoveryId head : Hash) (entries : UInt64) :
    (identityLeaf root recoveryId head entries).length = 126 := by
  have hlabel : identityLeafLabel.length = 22 := by decide
  simp only [identityLeaf, List.length_append, hlabel, Vector.length_toList, length_beBytes]

theorem length_epochLeaf (identityRoot chainHead : Hash) (epochs : UInt64) :
    (epochLeaf identityRoot chainHead epochs).length = 91 := by
  have hlabel : epochLeafLabel.length = 19 := by decide
  simp only [epochLeaf, List.length_append, hlabel, Vector.length_toList, length_beBytes]

theorem identityLeaf_ne_epochLeaf (root recoveryId head identityRoot chainHead : Hash)
    (entries epochs : UInt64) :
    identityLeaf root recoveryId head entries ≠ epochLeaf identityRoot chainHead epochs := by
  intro h
  have hlen := congrArg List.length h
  rw [length_identityLeaf, length_epochLeaf] at hlen
  omega

theorem identityLeaf_inj {root root' recoveryId recoveryId' head head' : Hash}
    {entries entries' : UInt64}
    (h : identityLeaf root recoveryId head entries = identityLeaf root' recoveryId' head' entries') :
    root = root' ∧ recoveryId = recoveryId' ∧ head = head' ∧ entries = entries' := by
  simp only [identityLeaf, List.append_assoc] at h
  have ⟨hroot, h⟩ := selfDelimiting_vector 32 _ _ _ _ trivial trivial (List.append_cancel_left h)
  have ⟨hid, h⟩ := selfDelimiting_vector 32 _ _ _ _ trivial trivial h
  have ⟨hhead, h⟩ := selfDelimiting_vector 32 _ _ _ _ trivial trivial h
  have hentries := beBytes_inj entries.toNat_lt entries'.toNat_lt h
  exact ⟨hroot, hid, hhead, UInt64.toNat_inj.mp hentries⟩

theorem epochLeaf_inj {identityRoot identityRoot' chainHead chainHead' : Hash}
    {epochs epochs' : UInt64}
    (h : epochLeaf identityRoot chainHead epochs = epochLeaf identityRoot' chainHead' epochs') :
    identityRoot = identityRoot' ∧ chainHead = chainHead' ∧ epochs = epochs' := by
  simp only [epochLeaf, List.append_assoc] at h
  have ⟨hroot, h⟩ := selfDelimiting_vector 32 _ _ _ _ trivial trivial (List.append_cancel_left h)
  have ⟨hhead, h⟩ := selfDelimiting_vector 32 _ _ _ _ trivial trivial h
  have hepochs := beBytes_inj epochs.toNat_lt epochs'.toNat_lt h
  exact ⟨hroot, hhead, UInt64.toNat_inj.mp hepochs⟩

end HideProtocol.Transparency
