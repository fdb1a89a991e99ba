import MiniDuck.DependencySet

/-!
# The dependency manager

The operations of the manager on the two sets of links, and what each
does to the one map of links both represent (`Tracks`). Creating a link
inherits the flags of an existing one and replaces it
(`Tracks.createDependency`), removing and cleaning up erase links
(`Tracks.removeDependency`, `Tracks.cleanupDependencies`).
-/

namespace MiniDuck

namespace Dependencies

/-! ## The catalog -/

structure CatalogEntry where
  info : CatalogEntryInfo
  oid : Nat
  internal : Bool
  deriving DecidableEq

/-- `DuckSchemaEntry::GetCatalogSet`, by one type of each set. -/
def CatalogType.catalogSet : CatalogType → CatalogType
  | .viewEntry => .tableEntry
  | .tableMacroEntry => .tableFunctionEntry
  | .scalarFunctionEntry | .macroEntry | .windowFunctionEntry => .aggregateFunctionEntry
  | type => type

def CatalogEntryInfo.slot (info : CatalogEntryInfo) : CatalogEntryInfo :=
  { info with type := info.type.catalogSet }

theorem CatalogEntryInfo.name_of_slot {a b : CatalogEntryInfo} (h : a.slot = b.slot) :
    a.name = b.name := by
  have hname : a.slot.name = b.slot.name := by rw [h]
  exact hname

def lookupEntry (catalog : List CatalogEntry) (info : CatalogEntryInfo) : Option CatalogEntry :=
  catalog.find? fun entry => entry.info.slot = info.slot

def Separate (catalog : List CatalogEntry) : Prop :=
  catalog.Pairwise fun a b => a.info.slot ≠ b.info.slot

variable {catalog : List CatalogEntry} {entry : CatalogEntry}

theorem lookupEntry_some {info : CatalogEntryInfo} (h : lookupEntry catalog info = some entry) :
    entry ∈ catalog ∧ entry.info.slot = info.slot :=
  ⟨List.mem_of_find?_eq_some h, by simpa using List.find?_some h⟩

theorem Separate.eq_of_slot (h : Separate catalog) {a b : CatalogEntry} (ha : a ∈ catalog)
    (hb : b ∈ catalog) (hslot : a.info.slot = b.info.slot) : a = b := by
  have : Std.Symm fun a b : CatalogEntry => a.info.slot ≠ b.info.slot :=
    ⟨fun _ _ hab => hab.symm⟩
  by_contra hne
  exact List.Pairwise.forall h ha hb hne hslot

theorem Separate.lookupEntry (h : Separate catalog) (hmem : entry ∈ catalog) :
    lookupEntry catalog entry.info = some entry := by
  cases hfind : Dependencies.lookupEntry catalog entry.info with
  | none => exact absurd (decide_eq_true rfl) (List.find?_eq_none.mp hfind _ hmem)
  | some other =>
      obtain ⟨hother, hslot⟩ := lookupEntry_some hfind
      rw [h.eq_of_slot hother hmem hslot]

theorem Separate.nodup (h : Separate catalog) : catalog.Nodup := by
  refine List.Pairwise.imp ?_ h
  rintro a _ hslot rfl
  exact hslot rfl

theorem Separate.found (h : Separate catalog) {found : CatalogEntry} (hmem : entry ∈ catalog)
    (hfound : Dependencies.lookupEntry catalog entry.info = some found) :
    found.info = entry.info := by
  rw [h.lookupEntry hmem] at hfound
  rw [Option.some.inj hfound]

/-! ## Operations -/

inductive AlterTableType where
  | invalid | renameColumn | renameTable | addColumn | removeColumn | alterColumnType
  | setDefault | foreignKeyConstraint | setNotNull | dropNotNull | setColumnComment
  | addConstraint | setPartitionedBy | setSortedBy | addField | removeField | renameField
  | setTableOptions | resetTableOptions
  deriving DecidableEq

/-- `AlterType`, with the kind of an `ALTER TABLE`. -/
inductive AlterType where
  | invalid | alterTable (alterTableType : AlterTableType) | alterView | alterSequence
  | changeOwnership | alterScalarFunction | alterTableFunction | setComment | setColumnComment
  | alterDatabase | alterSchema
  deriving DecidableEq

structure LogicalDependency where
  entry : CatalogEntryInfo
  catalog : Identifier
  flags : DependencyDependentFlags

structure AlterInfo where
  type : AlterType
  newDependencies : Option (List LogicalDependency)

structure DependencyManager where
  catalogName : Identifier
  /-- The entries of the catalog the transaction sees. -/
  catalog : List CatalogEntry
  subjects : CatalogSet
  dependents : CatalogSet

def CatalogEntry.isSystemEntry (entry : CatalogEntry) : Bool :=
  entry.internal || match entry.info.type with
    | .dependencyEntry | .databaseEntry | .renamedEntry => true
    | _ => false

/-- The flags of existing entries, merged into those of a new one. -/
def DependencyInfo.inherit (info : DependencyInfo)
    (existingDependent existingSubject : Option DependencyInfo) : DependencyInfo where
  dependent := { info.dependent with flags := match existingDependent with
    | some existing => if existing.dependent.flags ≠ info.dependent.flags then
        info.dependent.flags.apply existing.dependent.flags else info.dependent.flags
    | none => info.dependent.flags }
  subject := { info.subject with flags := match existingSubject with
    | some existing => if existing.subject.flags ≠ info.subject.flags then
        info.subject.flags.apply existing.subject.flags else info.subject.flags
    | none => info.subject.flags }

namespace DependencyManager

variable (manager : DependencyManager)

def scanSubjects (info : CatalogEntryInfo) : List DependencyInfo :=
  scan .subject manager.subjects info

def scanDependents (info : CatalogEntryInfo) : List DependencyInfo :=
  scan .dependent manager.dependents info

/-- `RemoveDependency`; an entry that is not there is not dropped. -/
def removeDependency (info : DependencyInfo) : DependencyManager :=
  { manager with
    dependents := manager.dependents.dropEntry
      (applyPrefix info.subject.entry (mangledEntryName info.dependent.entry))
    subjects := manager.subjects.dropEntry
      (applyPrefix info.dependent.entry (mangledEntryName info.subject.entry)) }

def cleanupDependencies (info : CatalogEntryInfo) : DependencyManager :=
  (manager.scanSubjects info ++ manager.scanDependents info).foldl removeDependency manager

/-- `CreateDependency`; `none` is its exception. -/
def createDependency (info : DependencyInfo) : Option DependencyManager :=
  match lookupEntry manager.catalog info.subject.entry with
  | none => none
  | some subjectEntry =>
      let subjectName := applyPrefix info.dependent.entry (mangledEntryName info.subject.entry)
      let dependentName := applyPrefix info.subject.entry (mangledEntryName info.dependent.entry)
      let merged := DependencyInfo.inherit
        { info with subject := { info.subject with oid := some subjectEntry.oid } }
        (manager.dependents.getEntry dependentName) (manager.subjects.getEntry subjectName)
      some { manager with
        dependents := (manager.dependents.dropEntry dependentName).createEntry dependentName merged
        subjects := (manager.subjects.dropEntry subjectName).createEntry subjectName merged }

/-- The dependency of an object that `CreateDependencies` makes a link of. -/
def logicalLink (object : CatalogEntryInfo) (dependency : LogicalDependency) : DependencyInfo where
  dependent :=
    { entry := object
      flags := if object.type = .indexEntry ∧ dependency.flags = ⟨true, false, false⟩ then
        ⟨false, false, false⟩ else dependency.flags }
  subject := { entry := dependency.entry, flags := ⟨false⟩, oid := none }

def createDependencies (object : CatalogEntryInfo) (dependencies : List LogicalDependency) :
    Option DependencyManager :=
  if dependencies.any fun dependency => dependency.catalog ≠ manager.catalogName then none
  else (dependencies.map (logicalLink object)).foldlM createDependency manager

/-- `AddOwnership`; `none` is its exception. -/
def addOwnership (owner entry : CatalogEntry) : Option DependencyManager :=
  if entry.isSystemEntry || owner.isSystemEntry then some manager
  -- the owner is already owned
  else if (manager.scanDependents owner.info).any (·.dependent.flags.ownedBy) then none
  -- the entry is itself an owner
  else if (manager.scanSubjects entry.info).any fun other =>
      (lookupEntry manager.catalog other.subject.entry).isSome && other.dependent.flags.ownedBy then
    none
  -- the entry has another owner
  else if (manager.scanDependents entry.info).any fun other =>
      match lookupEntry manager.catalog other.dependent.entry with
      | none => false
      | some dep => other.subject.flags.ownership && dep ≠ owner then
    none
  else
    manager.createDependency
      { dependent := { entry := owner.info, flags := ⟨false, true, false⟩ }
        subject := { entry := entry.info, flags := ⟨true⟩, oid := none } }

/-- Whether a dependent forbids an alter of the entry it depends on. -/
def disallowsAlter (type : AlterType) (dep : DependencyInfo) : Bool :=
  let allowed := match type with
    | .alterTable .foreignKeyConstraint | .alterTable .addColumn | .alterTable .setDefault
    | .setColumnComment | .setComment => true
    | _ => false
  let renamesOwningTable := type = .alterTable .renameTable
  !(allowed || (dep.dependent.entry.type = .triggerEntry && !dep.dependent.flags.alterBlocking
    && !renamesOwningTable))

/-- The links of the old object that the new one keeps. -/
def keptLinks (oldInfo newInfo : CatalogEntryInfo) (hasNewDependencies : Bool) :
    List DependencyInfo :=
  (manager.scanDependents oldInfo).map (fun dep =>
    { dep with subject := { dep.subject with entry := newInfo } }) ++
  ((manager.scanSubjects oldInfo).filter fun dep =>
    !(hasNewDependencies && !dep.subject.flags.ownership) &&
      (lookupEntry manager.catalog dep.subject.entry).isSome).map fun dep =>
    { dep with dependent := { dep.dependent with entry := newInfo } }

/-- `AlterObject`; `none` is its exception. -/
def alterObject (oldObj newObj : CatalogEntry) (alterInfo : AlterInfo) :
    Option DependencyManager :=
  if newObj.isSystemEntry then some manager
  else if (manager.scanDependents oldObj.info).any (disallowsAlter alterInfo.type) then none
  else
    let dependencies :=
      manager.keptLinks oldObj.info newObj.info alterInfo.newDependencies.isSome
    let cleaned :=
      if alterInfo.newDependencies.isSome ∨ oldObj.info.name ≠ newObj.info.name then
        manager.cleanupDependencies oldObj.info
      else manager
    (match alterInfo.newDependencies with
      | some newDependencies => cleaned.createDependencies newObj.info newDependencies
      | none => some cleaned).bind fun updated => dependencies.foldlM createDependency updated

end DependencyManager

/-! ## The links of a manager -/

structure Tracks (manager : DependencyManager) (links : Links) : Prop where
  subjects : Represents .subject manager.subjects links
  dependents : Represents .dependent manager.dependents links

def Links.without (links : Links) (info : CatalogEntryInfo) : Links := fun dependent subject =>
  if dependent = info ∨ subject = info then none else links dependent subject

/-- The links without those between the ends of the given ones. -/
def Links.eraseAll (links : Links) (l : List DependencyInfo) : Links :=
  l.foldl (fun links dep => links.erase dep.dependent.entry dep.subject.entry) links

theorem Links.eraseAll_eq (links : Links) (l : List DependencyInfo)
    (dependent subject : CatalogEntryInfo) :
    links.eraseAll l dependent subject =
      if ∃ dep ∈ l, dep.dependent.entry = dependent ∧ dep.subject.entry = subject then none
      else links dependent subject := by
  induction l generalizing links with
  | nil => simp [eraseAll]
  | cons dep l ih =>
      rw [eraseAll, List.foldl_cons, ← eraseAll, ih, erase]
      simp only [List.mem_cons, exists_eq_or_imp]
      by_cases hends : dep.dependent.entry = dependent ∧ dep.subject.entry = subject
      · have herased : dependent = dep.dependent.entry ∧ subject = dep.subject.entry :=
          ⟨hends.1.symm, hends.2.symm⟩
        rw [if_pos herased, ite_self, if_pos (.inl hends)]
      · have hkept : ¬(dependent = dep.dependent.entry ∧ subject = dep.subject.entry) :=
          fun h => hends ⟨h.1.symm, h.2.symm⟩
        rw [if_neg hkept]
        exact if_congr (or_iff_right hends).symm rfl rfl

theorem Links.insert_erase (links : Links) (dep : DependencyInfo) :
    (links.erase dep.dependent.entry dep.subject.entry).insert dep = links.insert dep := by
  funext dependent subject
  rw [insert, insert, erase]
  split
  · rfl
  · rfl

/-- The link that `CreateDependency` records. -/
def Links.created (links : Links) (info : DependencyInfo) (oid : Nat) : DependencyInfo :=
  DependencyInfo.inherit { info with subject := { info.subject with oid := some oid } }
    (links info.dependent.entry info.subject.entry) (links info.dependent.entry info.subject.entry)

namespace Tracks

variable {manager manager' : DependencyManager} {links : Links} {info : DependencyInfo}

variable {entry : CatalogEntryInfo}

theorem mem_scanSubjects (h : Tracks manager links) (hentry : Named entry) {dep : DependencyInfo} :
    dep ∈ manager.scanSubjects entry ↔ dep.dependent.entry = entry ∧
      links dep.dependent.entry dep.subject.entry = some dep :=
  h.subjects.mem_scan hentry

theorem mem_scanDependents (h : Tracks manager links) {entry : CatalogEntryInfo}
    (hentry : Named entry) {dep : DependencyInfo} :
    dep ∈ manager.scanDependents entry ↔ dep.subject.entry = entry ∧
      links dep.dependent.entry dep.subject.entry = some dep :=
  h.dependents.mem_scan hentry

theorem removeDependency (h : Tracks manager links) (hdependent : Named info.dependent.entry)
    (hsubject : Named info.subject.entry) :
    Tracks (manager.removeDependency info)
      (links.erase info.dependent.entry info.subject.entry) where
  subjects := h.subjects.dropEntry hdependent hsubject
  dependents := h.dependents.dropEntry hdependent hsubject

theorem foldl_removeDependency {l : List DependencyInfo} (h : Tracks manager links)
    (hl : ∀ dep ∈ l, Named dep.dependent.entry ∧ Named dep.subject.entry) :
    Tracks (l.foldl DependencyManager.removeDependency manager) (links.eraseAll l) := by
  induction l generalizing manager links with
  | nil => exact h
  | cons dep l ih =>
      obtain ⟨hdependent, hsubject⟩ := hl dep List.mem_cons_self
      exact ih (h.removeDependency hdependent hsubject) fun other hother =>
        hl other (List.mem_cons_of_mem _ hother)

theorem cleanupDependencies (h : Tracks manager links) (hentry : Named entry) :
    Tracks (manager.cleanupDependencies entry) (links.without entry) := by
  have hmem : ∀ dep, dep ∈ manager.scanSubjects entry ++ manager.scanDependents entry ↔
      (dep.dependent.entry = entry ∨ dep.subject.entry = entry) ∧
        links dep.dependent.entry dep.subject.entry = some dep := by
    intro dep
    rw [List.mem_append, h.mem_scanSubjects hentry, h.mem_scanDependents hentry, ← or_and_right]
  have herased : links.eraseAll (manager.scanSubjects entry ++ manager.scanDependents entry) =
      links.without entry := by
    funext dependent subject
    rw [Links.eraseAll_eq, Links.without]
    cases hlink : links dependent subject with
    | none => rw [ite_self, ite_self]
    | some dep =>
        obtain ⟨rfl, rfl, -⟩ := h.subjects.recorded hlink
        refine if_congr ⟨?_, ?_⟩ rfl rfl
        · rintro ⟨other, hother, hd, hs⟩
          rw [← hd, ← hs]
          exact ((hmem other).mp hother).1
        · intro hend
          exact ⟨dep, (hmem dep).mpr ⟨hend, hlink⟩, rfl, rfl⟩
  rw [← herased]
  exact h.foldl_removeDependency fun dep hdep => h.subjects.named ((hmem dep).mp hdep).2

theorem createDependency (h : Tracks manager links) (hdependent : Named info.dependent.entry)
    (hsubject : Named info.subject.entry) (hrun : manager.createDependency info = some manager') :
    ∃ entry, lookupEntry manager.catalog info.subject.entry = some entry ∧
      manager'.catalog = manager.catalog ∧
      Tracks manager' (links.insert (links.created info entry.oid)) := by
  rw [DependencyManager.createDependency] at hrun
  split at hrun
  · exact absurd hrun (Option.some_ne_none _).symm
  · rename_i entry hentry
    refine ⟨entry, hentry, (Option.some.inj hrun) ▸ rfl, ?_⟩
    have hset : ∀ {side set}, Represents side set links →
        Represents side ((set.dropEntry
            (keyBetween side info.dependent.entry info.subject.entry)).createEntry
            (keyBetween side info.dependent.entry info.subject.entry)
            (links.created info entry.oid)) (links.insert (links.created info entry.oid)) := by
      intro side set hset
      rw [← Links.insert_erase]
      have hdropped := hset.dropEntry hdependent hsubject
      exact Represents.createEntry (links.created info entry.oid) hdropped hdependent hsubject
        (if_pos ⟨rfl, rfl⟩)
    have hsubjects := h.subjects.getEntry hdependent hsubject
    have hdependents := h.dependents.getEntry hdependent hsubject
    dsimp only [keyBetween] at hsubjects hdependents
    dsimp only at hrun
    rw [hsubjects, hdependents] at hrun
    obtain rfl := Option.some.inj hrun
    exact ⟨hset h.subjects, hset h.dependents⟩

end Tracks

end Dependencies

end MiniDuck
