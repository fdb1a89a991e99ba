import MiniDuck.DependencyNames

/-!
# The two sets of dependency links

Each link between a dependent and its subject is stored twice: among the
subjects under the dependent's name followed by the subject's, and among
the dependents the other way round. `Represents` connects either set to
the partial map of links it stands for. The operations of a
`DependencyCatalogSet` are a lookup, an update and an erasure of that map
(`Represents.getEntry`, `Represents.createEntry`, `Represents.dropEntry`),
and a scan by prefix is exact (`Represents.mem_scan`).
-/

namespace MiniDuck

namespace Dependencies

/-! ## Links -/

structure DependencySubjectFlags where
  ownership : Bool
  deriving DecidableEq

structure DependencyDependentFlags where
  blocking : Bool
  ownedBy : Bool
  alterBlocking : Bool
  deriving DecidableEq

def DependencySubjectFlags.apply (flags other : DependencySubjectFlags) :
    DependencySubjectFlags where
  ownership := flags.ownership || other.ownership

def DependencyDependentFlags.apply (flags other : DependencyDependentFlags) :
    DependencyDependentFlags where
  blocking := flags.blocking || other.blocking
  ownedBy := flags.ownedBy || other.ownedBy
  alterBlocking := flags.alterBlocking || other.alterBlocking

structure DependencyDependent where
  entry : CatalogEntryInfo
  flags : DependencyDependentFlags
  deriving DecidableEq

structure DependencySubject where
  entry : CatalogEntryInfo
  flags : DependencySubjectFlags
  oid : Option Nat
  deriving DecidableEq

structure DependencyInfo where
  dependent : DependencyDependent
  subject : DependencySubject
  deriving DecidableEq

/-- `DependencyEntryType`: which of the two sets an entry is in. -/
inductive DependencyEntryType where
  | subject | dependent
  deriving DecidableEq

/-- `SourceInfo`: the entry a dependency entry is listed under. -/
def sourceInfo : DependencyEntryType → DependencyInfo → CatalogEntryInfo
  | .subject, dep => dep.dependent.entry
  | .dependent, dep => dep.subject.entry

/-- `EntryInfo`: the entry a dependency entry names. -/
def entryInfo : DependencyEntryType → DependencyInfo → CatalogEntryInfo
  | .subject, dep => dep.subject.entry
  | .dependent, dep => dep.dependent.entry

/-! ## Catalog sets -/

def ciLessThan : Identifier → Identifier → Bool
  | _, [] => false
  | [], _ :: _ => true
  | u1 :: s1, u2 :: s2 => if u1 ≠ u2 then u1 < u2 else ciLessThan s1 s2

/-- A `CatalogSet` of dependency entries as its transaction sees it: the
entries that are not deleted, in the order of their keys. -/
abbrev CatalogSet := List (Identifier × DependencyInfo)

namespace CatalogSet

variable (set : CatalogSet)

def getEntry (name : Identifier) : Option DependencyInfo :=
  (set.find? fun entry => entry.1 = name).map Prod.snd

/-- `CreateEntry`: without effect if the key is taken. -/
def createEntry (name : Identifier) (value : DependencyInfo) : CatalogSet :=
  if (getEntry set name).isSome then set
  else set.orderedInsert (fun a b => ¬ciLessThan b.1 a.1) (name, value)

def dropEntry (name : Identifier) : CatalogSet :=
  set.filter fun entry => entry.1 ≠ name

/-- `ScanWithPrefix`: from the lower bound of the prefix to the upper bound of
the prefix followed by the largest byte. -/
def scanWithPrefix (start : Identifier) : List DependencyInfo :=
  (set.filter fun entry =>
    ¬ciLessThan entry.1 start ∧ ¬ciLessThan (start ++ [255]) entry.1).map Prod.snd

end CatalogSet

def applyPrefix (info : CatalogEntryInfo) (name : Identifier) : Identifier :=
  mangledDependencyName (mangledEntryName info) name

def scan (side : DependencyEntryType) (set : CatalogSet) (info : CatalogEntryInfo) :
    List DependencyInfo :=
  (set.scanWithPrefix (mangledEntryName info)).filter fun dep =>
    mangledEntryName (sourceInfo side dep) = mangledEntryName info

/-- Every key that continues a prefix with a NUL byte is in its range. -/
theorem inRange_append (start rest : Identifier) :
    ¬ciLessThan (start ++ nul :: rest) start ∧
      ¬ciLessThan (start ++ [255]) (start ++ nul :: rest) := by
  induction start with
  | nil => exact ⟨by simp [ciLessThan], by simp [ciLessThan, nul]⟩
  | cons u start ih => simpa [ciLessThan] using ih

/-! ## The map of links -/

/-- The links between a dependent and a subject. -/
abbrev Links := CatalogEntryInfo → CatalogEntryInfo → Option DependencyInfo

namespace Links

variable (links : Links)

def insert (dep : DependencyInfo) : Links := fun dependent subject =>
  if dependent = dep.dependent.entry ∧ subject = dep.subject.entry then some dep
  else links dependent subject

def erase (dependent subject : CatalogEntryInfo) : Links := fun dependent' subject' =>
  if dependent' = dependent ∧ subject' = subject then none else links dependent' subject'

end Links

def Named (info : CatalogEntryInfo) : Prop := info.WellFormed ∧ info.Plain

def keyBetween (side : DependencyEntryType) (dependent subject : CatalogEntryInfo) : Identifier :=
  match side with
  | .subject => applyPrefix dependent (mangledEntryName subject)
  | .dependent => applyPrefix subject (mangledEntryName dependent)

theorem keyBetween_inj {side : DependencyEntryType}
    {dependent subject dependent' subject' : CatalogEntryInfo}
    (hdependent : Named dependent) (hsubject : Named subject)
    (hdependent' : Named dependent') (hsubject' : Named subject')
    (h : keyBetween side dependent subject = keyBetween side dependent' subject') :
    dependent = dependent' ∧ subject = subject' := by
  cases side with
  | subject => exact mangledDependencyName_inj hdependent hsubject hdependent' hsubject' h
  | dependent =>
      exact (mangledDependencyName_inj hsubject hdependent hsubject' hdependent' h).symm

/-- The set holds exactly the links of the map, under their keys. -/
structure Represents (side : DependencyEntryType) (set : CatalogSet) (links : Links) : Prop where
  nodup : (set.map Prod.fst).Nodup
  stored : ∀ entry ∈ set,
    entry.1 = keyBetween side entry.2.dependent.entry entry.2.subject.entry ∧
      Named entry.2.dependent.entry ∧ Named entry.2.subject.entry ∧
      links entry.2.dependent.entry entry.2.subject.entry = some entry.2
  recorded : ∀ {dependent subject dep}, links dependent subject = some dep →
    dep.dependent.entry = dependent ∧ dep.subject.entry = subject ∧
      (keyBetween side dependent subject, dep) ∈ set

namespace Represents

variable {side : DependencyEntryType} {set : CatalogSet} {links : Links}
  {dependent subject : CatalogEntryInfo} {dep : DependencyInfo}

theorem named (h : Represents side set links) (hlink : links dependent subject = some dep) :
    Named dependent ∧ Named subject := by
  obtain ⟨rfl, rfl, hmem⟩ := h.recorded hlink
  obtain ⟨-, hdependent, hsubject, -⟩ := h.stored _ hmem
  exact ⟨hdependent, hsubject⟩

/-- What is stored under a key is the link between the entries it names. -/
theorem of_key (h : Represents side set links) (hdependent : Named dependent)
    (hsubject : Named subject) {entry : Identifier × DependencyInfo} (hmem : entry ∈ set)
    (hkey : entry.1 = keyBetween side dependent subject) :
    links dependent subject = some entry.2 := by
  obtain ⟨hown, hdependent', hsubject', hlink⟩ := h.stored entry hmem
  obtain ⟨hd, hs⟩ := keyBetween_inj hdependent' hsubject' hdependent hsubject (hown ▸ hkey)
  rw [← hd, ← hs, hlink]

theorem getEntry (h : Represents side set links) (hdependent : Named dependent)
    (hsubject : Named subject) :
    set.getEntry (keyBetween side dependent subject) = links dependent subject := by
  rw [CatalogSet.getEntry]
  cases hfind : set.find? fun entry => entry.1 = keyBetween side dependent subject with
  | some entry =>
      have hkey := List.find?_some hfind
      rw [Option.map_some,
        h.of_key hdependent hsubject (List.mem_of_find?_eq_some hfind) (of_decide_eq_true hkey)]
  | none =>
      cases hlink : links dependent subject with
      | none => rfl
      | some dep =>
          obtain ⟨-, -, hmem⟩ := h.recorded hlink
          exact absurd (decide_eq_true rfl) (List.find?_eq_none.mp hfind _ hmem)

theorem createEntry (dep : DependencyInfo) (h : Represents side set links)
    (hdependent : Named dep.dependent.entry) (hsubject : Named dep.subject.entry)
    (hfree : links dep.dependent.entry dep.subject.entry = none) :
    Represents side
      (set.createEntry (keyBetween side dep.dependent.entry dep.subject.entry) dep)
      (links.insert dep) := by
  have hnew : ∀ entry, entry ∈
      set.createEntry (keyBetween side dep.dependent.entry dep.subject.entry) dep ↔
        entry = (keyBetween side dep.dependent.entry dep.subject.entry, dep) ∨ entry ∈ set := by
    intro entry
    rw [CatalogSet.createEntry, h.getEntry hdependent hsubject, hfree, Option.isSome_none,
      if_neg Bool.false_ne_true, List.mem_orderedInsert]
  constructor
  · rw [CatalogSet.createEntry, h.getEntry hdependent hsubject, hfree, Option.isSome_none,
      if_neg Bool.false_ne_true, ((List.perm_orderedInsert _ _ _).map Prod.fst).nodup_iff]
    refine List.nodup_cons.mpr ⟨fun hmem => ?_, h.nodup⟩
    obtain ⟨entry, hentry, hkey⟩ := List.mem_map.mp hmem
    rw [h.of_key hdependent hsubject hentry hkey] at hfree
    exact Option.some_ne_none _ hfree
  · intro entry hmem
    obtain rfl | hmem := (hnew entry).mp hmem
    · exact ⟨rfl, hdependent, hsubject, if_pos ⟨rfl, rfl⟩⟩
    · obtain ⟨hkey, hd, hs, hlink⟩ := h.stored entry hmem
      refine ⟨hkey, hd, hs, ?_⟩
      rw [Links.insert, if_neg, hlink]
      rintro ⟨heqd, heqs⟩
      rw [heqd, heqs, hfree] at hlink
      exact absurd hlink (Option.some_ne_none _).symm
  · intro dependent subject other hlink
    rw [Links.insert] at hlink
    split at hlink
    · rename_i heq
      obtain rfl := Option.some.inj hlink
      obtain ⟨rfl, rfl⟩ := heq
      exact ⟨rfl, rfl, (hnew _).mpr (.inl rfl)⟩
    · obtain ⟨hd, hs, hmem⟩ := h.recorded hlink
      exact ⟨hd, hs, (hnew _).mpr (.inr hmem)⟩

theorem dropEntry (h : Represents side set links) (hdependent : Named dependent)
    (hsubject : Named subject) :
    Represents side (set.dropEntry (keyBetween side dependent subject))
      (links.erase dependent subject) := by
  constructor
  · exact h.nodup.sublist (List.filter_sublist.map Prod.fst)
  · intro entry hmem
    obtain ⟨hmem, hne⟩ := List.mem_filter.mp hmem
    obtain ⟨hkey, hd, hs, hlink⟩ := h.stored entry hmem
    refine ⟨hkey, hd, hs, ?_⟩
    rw [Links.erase, if_neg, hlink]
    rintro ⟨heqd, heqs⟩
    exact of_decide_eq_true hne (heqd ▸ heqs ▸ hkey)
  · intro dependent' subject' other hlink
    rw [Links.erase] at hlink
    split at hlink
    · exact absurd hlink (Option.some_ne_none _).symm
    · rename_i hne
      obtain ⟨hd, hs, hmem⟩ := h.recorded hlink
      refine ⟨hd, hs, List.mem_filter.mpr ⟨hmem, decide_eq_true ?_⟩⟩
      intro heq
      obtain ⟨hd', hs'⟩ := h.named hlink
      exact hne (keyBetween_inj hd' hs' hdependent hsubject heq)

/-- A key begins with the entry its link is listed under. -/
theorem keyBetween_source (side : DependencyEntryType) (dep : DependencyInfo) :
    keyBetween side dep.dependent.entry dep.subject.entry =
      mangledEntryName (sourceInfo side dep) ++
        nul :: mangledEntryName (entryInfo side dep) := by
  cases side with
  | subject => rfl
  | dependent => rfl

/-- A scan finds the links listed under the entry and no others. -/
theorem mem_scan (h : Represents side set links) {info : CatalogEntryInfo} (hinfo : Named info) :
    dep ∈ scan side set info ↔
      sourceInfo side dep = info ∧ links dep.dependent.entry dep.subject.entry = some dep := by
  rw [scan, List.mem_filter, CatalogSet.scanWithPrefix, List.mem_map]
  constructor
  · rintro ⟨⟨entry, hmem, rfl⟩, hsource⟩
    obtain ⟨-, hd, hs, hlink⟩ := h.stored entry (List.mem_filter.mp hmem).1
    have hnamed : Named (sourceInfo side entry.2) := by
      cases side with
      | subject => exact hd
      | dependent => exact hs
    exact ⟨mangledEntryName_inj hnamed.1 hinfo.1 (of_decide_eq_true hsource), hlink⟩
  · rintro ⟨rfl, hlink⟩
    obtain ⟨-, -, hmem⟩ := h.recorded hlink
    refine ⟨⟨_, List.mem_filter.mpr ⟨hmem, decide_eq_true ?_⟩, rfl⟩, decide_eq_true rfl⟩
    rw [keyBetween_source]
    exact inRange_append _ _

end Represents

end Dependencies

end MiniDuck
