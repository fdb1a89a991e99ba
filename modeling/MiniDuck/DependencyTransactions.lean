import MiniDuck.DependencyManager
import MiniDuck.Lts

/-!
# Dependencies within a transaction

`transactions` takes the operations of the dependency manager in any
order over entries of a given kind. An exception ends the transaction,
so a step is an operation that returns. Over entries whose names are
told apart each state is `Sound`: both sets hold the same links, their
subjects are visible, and who owns what is a forest of depth one
(`Owned`). An alter carries the links of the old name over to the new
one; its image is again `Owned` since renaming is injective on what is
visible (`renamed_inj`).
-/

namespace MiniDuck

namespace Dependencies

/-! ## Ownership -/

/-- The first entry is recorded as the owner of the second. -/
def Owns (links : Links) (owner entry : CatalogEntryInfo) : Prop :=
  ∃ dep, links owner entry = some dep ∧ dep.subject.flags.ownership = true

def Visible (catalog : List CatalogEntry) (info : CatalogEntryInfo) : Prop :=
  ∃ entry ∈ catalog, entry.info = info

/-- Every owned entry has one owner, which is not owned itself. -/
structure Owned (catalog : List CatalogEntry) (links : Links) : Prop where
  visible : ∀ {owner entry}, Owns links owner entry → Visible catalog owner
  single : ∀ {owner owner' entry}, Owns links owner entry → Owns links owner' entry →
    owner = owner'
  flat : ∀ {owner entry other}, Owns links owner entry → ¬Owns links entry other

/-- The manager holds these links, with their subjects in its catalog. -/
structure Consistent (manager : DependencyManager) (links : Links) : Prop where
  tracks : Tracks manager links
  visible : ∀ {dependent subject dep}, links dependent subject = some dep →
    Visible manager.catalog subject
  flags : ∀ {dependent subject dep}, links dependent subject = some dep →
    dep.dependent.flags.ownedBy = dep.subject.flags.ownership

/-- A link between entries, marked as an ownership on both ends or on none. -/
structure Admissible (catalog : List CatalogEntry) (info : DependencyInfo) : Prop where
  dependent : Named info.dependent.entry
  subject : Named info.subject.entry
  found : ∀ entry, lookupEntry catalog info.subject.entry = some entry →
    entry.info = info.subject.entry
  flags : info.dependent.flags.ownedBy = info.subject.flags.ownership

def DependencyInfo.Gives (info : DependencyInfo) (owner entry : CatalogEntryInfo) : Prop :=
  info.dependent.entry = owner ∧ info.subject.entry = entry ∧ info.subject.flags.ownership = true

theorem Owned.mono {catalog : List CatalogEntry} {links links' : Links} (h : Owned catalog links)
    (hsub : ∀ {owner entry}, Owns links' owner entry → Owns links owner entry) :
    Owned catalog links' where
  visible hown := h.visible (hsub hown)
  single hown hown' := h.single (hsub hown) (hsub hown')
  flat hown hown' := h.flat (hsub hown) (hsub hown')

section

variable {links : Links} {dependent subject : CatalogEntryInfo} {dep : DependencyInfo}

theorem Links.of_without {info : CatalogEntryInfo}
    (h : links.without info dependent subject = some dep) :
    links dependent subject = some dep ∧ dependent ≠ info ∧ subject ≠ info := by
  rw [without] at h
  split at h
  · exact absurd h (Option.some_ne_none _).symm
  · rename_i hends
    obtain ⟨hdependent, hsubject⟩ := not_or.mp hends
    exact ⟨h, hdependent, hsubject⟩

theorem Links.of_erase {dependent' subject' : CatalogEntryInfo}
    (h : links.erase dependent' subject' dependent subject = some dep) :
    links dependent subject = some dep := by
  rw [erase] at h
  split at h
  · exact absurd h (Option.some_ne_none _).symm
  · exact h

end

/-! ## One operation -/

theorem removeDependency_catalog (l : List DependencyInfo) (manager : DependencyManager) :
    (l.foldl DependencyManager.removeDependency manager).catalog = manager.catalog := by
  induction l generalizing manager with
  | nil => rfl
  | cons dep l ih => exact ih _

theorem cleanupDependencies_catalog (manager : DependencyManager) (entry : CatalogEntryInfo) :
    (manager.cleanupDependencies entry).catalog = manager.catalog :=
  removeDependency_catalog _ manager

/-- The flags of a link that is created are those given and those it had. -/
theorem created_flags (links : Links) (info : DependencyInfo) (oid : Nat) :
    (links.created info oid).dependent.flags.ownedBy =
        (info.dependent.flags.ownedBy ||
          ((links info.dependent.entry info.subject.entry).map
            (·.dependent.flags.ownedBy)).getD false) ∧
      (links.created info oid).subject.flags.ownership =
        (info.subject.flags.ownership ||
          ((links info.dependent.entry info.subject.entry).map
            (·.subject.flags.ownership)).getD false) := by
  simp only [Links.created, DependencyInfo.inherit]
  cases links info.dependent.entry info.subject.entry with
  | none => simp
  | some existing =>
      constructor
      · by_cases heq : existing.dependent.flags = info.dependent.flags
        · simp [heq]
        · simp [heq, DependencyDependentFlags.apply]
      · by_cases heq : existing.subject.flags = info.subject.flags
        · simp [heq]
        · simp [heq, DependencySubjectFlags.apply]

namespace Consistent

variable {manager manager' : DependencyManager} {links : Links} {info : DependencyInfo}

theorem visible_of_owns (h : Consistent manager links) {owner entry : CatalogEntryInfo}
    (hown : Owns links owner entry) : Visible manager.catalog entry := by
  obtain ⟨dep, hlink, -⟩ := hown
  exact h.visible hlink

theorem of_subset {links' : Links} (h : Consistent manager links) (htracks : Tracks manager' links')
    (hcatalog : manager'.catalog = manager.catalog)
    (hsub : ∀ {dependent subject dep}, links' dependent subject = some dep →
      links dependent subject = some dep) : Consistent manager' links' where
  tracks := htracks
  visible hlink := hcatalog ▸ h.visible (hsub hlink)
  flags hlink := h.flags (hsub hlink)

theorem removeDependency (h : Consistent manager links) (hdependent : Named info.dependent.entry)
    (hsubject : Named info.subject.entry) :
    Consistent (manager.removeDependency info)
      (links.erase info.dependent.entry info.subject.entry) :=
  h.of_subset (h.tracks.removeDependency hdependent hsubject) rfl Links.of_erase

theorem cleanupDependencies (h : Consistent manager links) {entry : CatalogEntryInfo}
    (hentry : Named entry) :
    Consistent (manager.cleanupDependencies entry) (links.without entry) :=
  h.of_subset (h.tracks.cleanupDependencies hentry) (cleanupDependencies_catalog manager entry)
    fun hlink => (Links.of_without hlink).1

theorem createDependency (h : Consistent manager links)
    (hinfo : Admissible manager.catalog info)
    (hrun : manager.createDependency info = some manager') :
    ∃ links', Consistent manager' links' ∧ manager'.catalog = manager.catalog ∧
      ∀ {owner entry}, Owns links' owner entry →
        Owns links owner entry ∨ info.Gives owner entry := by
  obtain ⟨found, hfound, hcatalog, htracks⟩ :=
    h.tracks.createDependency hinfo.dependent hinfo.subject hrun
  obtain ⟨hdflag, hsflag⟩ := created_flags links info found.oid
  refine ⟨_, ⟨htracks, ?_, ?_⟩, hcatalog, ?_⟩
  · intro dependent subject dep hlink
    rw [hcatalog]
    rw [Links.insert] at hlink
    split at hlink
    · rename_i hends
      rw [hends.2]
      exact ⟨found, (lookupEntry_some hfound).1, hinfo.found found hfound⟩
    · exact h.visible hlink
  · intro dependent subject dep hlink
    rw [Links.insert] at hlink
    split at hlink
    · obtain rfl := Option.some.inj hlink
      rw [hdflag, hsflag, hinfo.flags]
      cases hold : links info.dependent.entry info.subject.entry with
      | none => rfl
      | some existing => rw [Option.map_some, Option.map_some, h.flags hold]
    · exact h.flags hlink
  · rintro owner entry ⟨dep, hlink, hown⟩
    rw [Links.insert] at hlink
    split at hlink
    · rename_i hends
      obtain rfl := Option.some.inj hlink
      obtain ⟨rfl, rfl⟩ := hends
      rw [hsflag, Bool.or_eq_true] at hown
      obtain hown | hown := hown
      · exact .inr ⟨rfl, rfl, hown⟩
      · cases hold : links info.dependent.entry info.subject.entry with
        | none =>
            rw [hold] at hown
            exact absurd hown Bool.false_ne_true
        | some existing =>
            rw [hold] at hown
            exact .inl ⟨existing, hold, hown⟩
    · exact .inl ⟨dep, hlink, hown⟩

theorem foldlM_createDependency {l : List DependencyInfo} (h : Consistent manager links)
    (hl : ∀ info ∈ l, Admissible manager.catalog info)
    (hrun : l.foldlM DependencyManager.createDependency manager = some manager') :
    ∃ links', Consistent manager' links' ∧ manager'.catalog = manager.catalog ∧
      ∀ {owner entry}, Owns links' owner entry →
        Owns links owner entry ∨ ∃ info ∈ l, info.Gives owner entry := by
  induction l generalizing manager links with
  | nil =>
      obtain rfl := Option.some.inj hrun
      exact ⟨links, h, rfl, .inl⟩
  | cons info l ih =>
      rw [List.foldlM_cons, Option.bind_eq_bind, Option.bind_eq_some_iff] at hrun
      obtain ⟨middle, hfirst, hrest⟩ := hrun
      obtain ⟨links₁, h₁, hcatalog, howns⟩ := h.createDependency (hl info List.mem_cons_self) hfirst
      obtain ⟨links₂, h₂, hcatalog', howns'⟩ := ih h₁
        (fun other hother => hcatalog ▸ hl other (List.mem_cons_of_mem _ hother)) hrest
      refine ⟨links₂, h₂, hcatalog'.trans hcatalog, fun hown => ?_⟩
      obtain hown | ⟨other, hother, hgives⟩ := howns' hown
      · exact (howns hown).imp_right fun hgives => ⟨info, List.mem_cons_self, hgives⟩
      · exact .inr ⟨other, List.mem_cons_of_mem _ hother, hgives⟩

/-! ## Ownership of a new entry -/

theorem addOwnership (h : Consistent manager links) (howned : Owned manager.catalog links)
    (hseparate : Separate manager.catalog) {owner entry : CatalogEntry}
    (howner : owner ∈ manager.catalog) (hentry : entry ∈ manager.catalog)
    (howner' : Named owner.info) (hentry' : Named entry.info) (hne : owner ≠ entry)
    (hrun : manager.addOwnership owner entry = some manager') :
    ∃ links', Consistent manager' links' ∧ manager'.catalog = manager.catalog ∧
      Owned manager.catalog links' := by
  have hneInfo : owner.info ≠ entry.info := fun heq =>
    hne (hseparate.eq_of_slot howner hentry (congrArg _ heq))
  rw [DependencyManager.addOwnership] at hrun
  split at hrun
  · obtain rfl := Option.some.inj hrun
    exact ⟨links, h, rfl, howned⟩
  split at hrun
  · exact absurd hrun (Option.some_ne_none _).symm
  rename_i hfirst
  split at hrun
  · exact absurd hrun (Option.some_ne_none _).symm
  rename_i hsecond
  split at hrun
  · exact absurd hrun (Option.some_ne_none _).symm
  rename_i hthird
  -- what the three checks say about the links
  have hfree : ∀ {other}, ¬Owns links other owner.info := by
    rintro other ⟨dep, hlink, hown⟩
    obtain ⟨rfl, hs, -⟩ := h.tracks.subjects.recorded hlink
    refine hfirst (List.any_eq_true.mpr ⟨dep, ?_, (h.flags hlink).trans hown⟩)
    exact (h.tracks.mem_scanDependents howner').mpr ⟨hs, hs ▸ hlink⟩
  have hflat : ∀ {other}, ¬Owns links entry.info other := by
    rintro other ⟨dep, hlink, hown⟩
    obtain ⟨hd, rfl, -⟩ := h.tracks.subjects.recorded hlink
    refine hsecond (List.any_eq_true.mpr ⟨dep, ?_, ?_⟩)
    · exact (h.tracks.mem_scanSubjects hentry').mpr ⟨hd, hd ▸ hlink⟩
    · obtain ⟨found, hfound, heq⟩ := h.visible hlink
      rw [← heq, hseparate.lookupEntry hfound, Option.isSome_some, Bool.true_and]
      exact (h.flags hlink).trans hown
  have hsame : ∀ {other}, Owns links other entry.info → other = owner.info := by
    rintro other ⟨dep, hlink, hown⟩
    by_contra hother
    obtain ⟨rfl, hs, -⟩ := h.tracks.subjects.recorded hlink
    refine hthird (List.any_eq_true.mpr ⟨dep, ?_, ?_⟩)
    · exact (h.tracks.mem_scanDependents hentry').mpr ⟨hs, hs ▸ hlink⟩
    · obtain ⟨found, hfound, heq⟩ := howned.visible ⟨dep, hlink, hown⟩
      rw [← heq, hseparate.lookupEntry hfound]
      refine Bool.and_eq_true_iff.mpr ⟨hown, decide_eq_true ?_⟩
      rintro rfl
      exact hother heq.symm
  obtain ⟨links', h', hcatalog, howns⟩ := h.createDependency ⟨howner', hentry', fun found hfound =>
    hseparate.found hentry hfound, rfl⟩ hrun
  have hcases : ∀ {a b}, Owns links' a b → Owns links a b ∨ owner.info = a ∧ entry.info = b :=
    fun hown => (howns hown).imp_right fun hgives => ⟨hgives.1, hgives.2.1⟩
  refine ⟨links', h', hcatalog, ?_, ?_, ?_⟩
  · intro a b hown
    obtain hown | ⟨rfl, -⟩ := hcases hown
    · exact howned.visible hown
    · exact ⟨owner, howner, rfl⟩
  · intro a a' b hown hown'
    obtain hown | ⟨rfl, rfl⟩ := hcases hown
    · obtain hown' | ⟨rfl, rfl⟩ := hcases hown'
      · exact howned.single hown hown'
      · exact hsame hown
    · obtain hown' | ⟨rfl, -⟩ := hcases hown'
      · exact (hsame hown').symm
      · rfl
  · intro a b c hown hown'
    obtain hown | ⟨rfl, rfl⟩ := hcases hown
    · obtain hown' | ⟨rfl, -⟩ := hcases hown'
      · exact howned.flat hown hown'
      · exact hfree hown
    · obtain hown' | ⟨heq, -⟩ := hcases hown'
      · exact hflat hown'
      · exact hneInfo heq

end Consistent

/-! ## Renaming an entry -/

def alteredCatalog (catalog : List CatalogEntry) (old new : CatalogEntry) : List CatalogEntry :=
  catalog.map fun entry => if entry = old then new else entry

/-- The name of an entry after an alter of one entry. -/
def renamed (old new info : CatalogEntryInfo) : CatalogEntryInfo := if info = old then new else info

section

variable {catalog : List CatalogEntry} {old new : CatalogEntry}

theorem mem_alteredCatalog_new (hold : old ∈ catalog) : new ∈ alteredCatalog catalog old new :=
  List.mem_map.mpr ⟨old, hold, if_pos rfl⟩

theorem mem_alteredCatalog_of_ne {entry : CatalogEntry} (h : entry ∈ catalog)
    (hne : entry.info ≠ old.info) : entry ∈ alteredCatalog catalog old new := by
  have hkept : entry ≠ old := by
    rintro rfl
    exact hne rfl
  exact List.mem_map.mpr ⟨entry, h, if_neg hkept⟩

theorem mem_alteredCatalog {entry : CatalogEntry} (h : entry ∈ alteredCatalog catalog old new) :
    entry = new ∨ entry ∈ catalog ∧ entry ≠ old := by
  obtain ⟨before, hbefore, rfl⟩ := List.mem_map.mp h
  split
  · exact .inl rfl
  · rename_i hne
    exact .inr ⟨hbefore, hne⟩

/-- No other entry is in the slot the new entry takes. -/
def Free (catalog : List CatalogEntry) (old new : CatalogEntry) : Prop :=
  ∀ entry ∈ catalog, entry ≠ old → entry.info.slot ≠ new.info.slot

theorem Separate.altered (h : Separate catalog) (hfree : Free catalog old new) :
    Separate (alteredCatalog catalog old new) := by
  rw [Separate, alteredCatalog, List.pairwise_map]
  refine List.Pairwise.imp_of_mem ?_ h
  intro a b ha hb hab
  by_cases haold : a = old
  · have hbold : b ≠ old := by
      rintro rfl
      exact hab (haold ▸ rfl)
    rw [if_pos haold, if_neg hbold]
    exact (hfree b hb hbold).symm
  · rw [if_neg haold]
    split
    · exact hfree a ha haold
    · exact hab

theorem Visible.renamed {info : CatalogEntryInfo} (h : Visible catalog info)
    (hold : old ∈ catalog) :
    Visible (alteredCatalog catalog old new) (renamed old.info new.info info) := by
  obtain ⟨entry, hentry, rfl⟩ := h
  rw [Dependencies.renamed]
  split
  · exact ⟨new, mem_alteredCatalog_new hold, rfl⟩
  · rename_i hne
    exact ⟨entry, mem_alteredCatalog_of_ne hentry hne, rfl⟩

theorem renamed_inj (hfree : Free catalog old new) {a b : CatalogEntryInfo}
    (ha : Visible catalog a) (hb : Visible catalog b)
    (heq : renamed old.info new.info a = renamed old.info new.info b) : a = b := by
  have hother : ∀ {info}, Visible catalog info → info ≠ old.info → info ≠ new.info := by
    rintro _ ⟨entry, hentry, rfl⟩ hne hnew
    exact hfree entry hentry (fun h => hne (h ▸ rfl)) (hnew ▸ rfl)
  by_cases haold : a = old.info
  · by_cases hbold : b = old.info
    · rw [haold, hbold]
    · rw [renamed, renamed, if_pos haold, if_neg hbold] at heq
      exact absurd heq.symm (hother hb hbold)
  · rw [renamed, renamed, if_neg haold] at heq
    split at heq
    · exact absurd heq (hother ha haold)
    · exact heq

/-- The image of a forest of depth one under a renaming. -/
theorem Owned.renamed {links links' : Links} (h : Owned catalog links)
    (hvisible : ∀ {owner entry}, Owns links owner entry → Visible catalog entry)
    (hold : old ∈ catalog) (hfree : Free catalog old new)
    (himage : ∀ {owner entry}, Owns links' owner entry → ∃ owner' entry', Owns links owner' entry' ∧
      owner = renamed old.info new.info owner' ∧ entry = renamed old.info new.info entry') :
    Owned (alteredCatalog catalog old new) links' where
  visible := by
    intro owner entry hown
    obtain ⟨owner, entry, hbefore, rfl, rfl⟩ := himage hown
    exact (h.visible hbefore).renamed hold
  single := by
    intro a a' b hown hown'
    obtain ⟨a, b, hbefore, rfl, rfl⟩ := himage hown
    obtain ⟨a', b', hbefore', rfl, hb⟩ := himage hown'
    obtain rfl := renamed_inj hfree (hvisible hbefore) (hvisible hbefore') hb
    rw [h.single hbefore hbefore']
  flat := by
    intro a b c hown hown'
    obtain ⟨a, b, hbefore, rfl, rfl⟩ := himage hown
    obtain ⟨b', c, hbefore', hb, rfl⟩ := himage hown'
    obtain rfl := renamed_inj hfree (hvisible hbefore) (h.visible hbefore') hb
    exact h.flat hbefore hbefore'

/-! ## Altering an object -/

variable {manager manager' : DependencyManager} {links : Links}

def DependencyManager.withAltered (manager : DependencyManager) (old new : CatalogEntry) :
    DependencyManager :=
  { manager with catalog := alteredCatalog manager.catalog old new }

theorem Tracks.withAltered (h : Tracks manager links) :
    Tracks (manager.withAltered old new) links := ⟨h.subjects, h.dependents⟩

/-- The links of the old object lead to visible subjects under its new name. -/
theorem Consistent.admissible_keptLinks (h : Consistent manager links)
    (hseparate : Separate manager.catalog) (hold : old ∈ manager.catalog)
    (hfree : Free manager.catalog old new) (hslot : old.info.slot = new.info.slot → old = new)
    (holdNamed : Named old.info) (hnewNamed : Named new.info) {hasNewDependencies : Bool} :
    ∀ info ∈ (manager.withAltered old new).keptLinks old.info new.info hasNewDependencies,
      Admissible (alteredCatalog manager.catalog old new) info := by
  have htracks : Tracks (manager.withAltered old new) links := h.tracks.withAltered
  have haltered := hseparate.altered hfree
  intro info hinfo
  obtain hinfo | hinfo := List.mem_append.mp hinfo
  · obtain ⟨dep, hdep, rfl⟩ := List.mem_map.mp hinfo
    obtain ⟨-, hlink⟩ := (htracks.mem_scanDependents holdNamed).mp hdep
    have hflags := h.flags hlink
    exact ⟨(htracks.subjects.named hlink).1, hnewNamed,
      fun found hfound => haltered.found (mem_alteredCatalog_new hold) hfound, hflags⟩
  · obtain ⟨dep, hdep, rfl⟩ := List.mem_map.mp hinfo
    obtain ⟨-, hlink⟩ := (htracks.mem_scanSubjects holdNamed).mp (List.mem_filter.mp hdep).1
    have hflags := h.flags hlink
    refine ⟨hnewNamed, (htracks.subjects.named hlink).2, fun found hfound => ?_, hflags⟩
    obtain ⟨entry, hentry, heq⟩ := h.visible hlink
    by_cases hself : entry = old
    · -- a link of the old object to itself is found only if its name is kept
      obtain ⟨hmem, hfoundSlot⟩ := lookupEntry_some hfound
      rw [← heq, hself] at hfoundSlot
      obtain rfl | ⟨hmem, hne⟩ := mem_alteredCatalog hmem
      · rw [← heq, hself, hslot hfoundSlot.symm]
      · exact absurd (hseparate.eq_of_slot hmem hold hfoundSlot) hne
    · rw [← heq]
      rw [← heq] at hfound
      exact haltered.found (List.mem_map.mpr ⟨entry, hentry, if_neg hself⟩) hfound

/-- What a kept link says about ownership, the old one said of the old name. -/
theorem Consistent.gives_keptLinks (h : Consistent manager links)
    (howned : Owned manager.catalog links) (holdNamed : Named old.info)
    {hasNewDependencies : Bool} {info : DependencyInfo} {owner entry : CatalogEntryInfo}
    (hinfo : info ∈ (manager.withAltered old new).keptLinks old.info new.info hasNewDependencies)
    (hgives : info.Gives owner entry) :
    ∃ owner' entry', Owns links owner' entry' ∧ owner = renamed old.info new.info owner' ∧
      entry = renamed old.info new.info entry' := by
  have htracks : Tracks (manager.withAltered old new) links := h.tracks.withAltered
  have hself : ¬Owns links old.info old.info := fun hown => howned.flat hown hown
  obtain ⟨rfl, rfl, hown⟩ := hgives
  obtain hinfo | hinfo := List.mem_append.mp hinfo
  · obtain ⟨dep, hdep, rfl⟩ := List.mem_map.mp hinfo
    obtain ⟨hsource, hlink⟩ := (htracks.mem_scanDependents holdNamed).mp hdep
    have howns : Owns links dep.dependent.entry old.info := ⟨dep, hsource ▸ hlink, hown⟩
    refine ⟨_, _, howns, ?_, (if_pos rfl).symm⟩
    rw [renamed, if_neg]
    exact fun heq => hself (heq ▸ howns)
  · obtain ⟨dep, hdep, rfl⟩ := List.mem_map.mp hinfo
    obtain ⟨hsource, hlink⟩ := (htracks.mem_scanSubjects holdNamed).mp (List.mem_filter.mp hdep).1
    have howns : Owns links old.info dep.subject.entry := ⟨dep, hsource ▸ hlink, hown⟩
    refine ⟨_, _, howns, (if_pos rfl).symm, ?_⟩
    rw [renamed, if_neg]
    exact fun heq => hself (heq ▸ howns)

/-- Before the links are reinstated none mentions a name that is gone. -/
theorem Consistent.cleaned (h : Consistent manager links) (holdNamed : Named old.info)
    (clean : Prop) [Decidable clean] (hclean : ¬clean → old = new) :
    ∃ links', Consistent (if clean then (manager.withAltered old new).cleanupDependencies old.info
        else manager.withAltered old new) links' ∧
      ∀ {owner entry}, Owns links' owner entry → Owns links owner entry ∧
        owner = renamed old.info new.info owner ∧ entry = renamed old.info new.info entry := by
  split
  · refine ⟨links.without old.info,
      ⟨h.tracks.withAltered.cleanupDependencies holdNamed, ?_, ?_⟩, ?_⟩
    · intro dependent subject dep hlink
      rw [cleanupDependencies_catalog]
      obtain ⟨hlink, -, hsubject⟩ := Links.of_without hlink
      obtain ⟨entry, hentry, rfl⟩ := h.visible hlink
      exact ⟨entry, mem_alteredCatalog_of_ne hentry hsubject, rfl⟩
    · intro dependent subject dep hlink
      exact h.flags (Links.of_without hlink).1
    · rintro owner entry ⟨dep, hlink, hown⟩
      obtain ⟨hlink, howner, hentry⟩ := Links.of_without hlink
      exact ⟨⟨dep, hlink, hown⟩, (if_neg howner).symm, (if_neg hentry).symm⟩
  · rename_i hkept
    obtain rfl := hclean hkept
    have hid : ∀ info, renamed old.info old.info info = info := by
      intro info
      rw [renamed]
      split
      · exact Eq.symm ‹_›
      · rfl
    refine ⟨links, ⟨h.tracks.withAltered, fun hlink => ?_, h.flags⟩, fun hown =>
      ⟨hown, (hid _).symm, (hid _).symm⟩⟩
    obtain ⟨entry, hentry, rfl⟩ := h.visible hlink
    exact ⟨entry, List.mem_map.mpr ⟨entry, hentry, ite_eq_right_iff.mpr Eq.symm⟩, rfl⟩

theorem cleanup_catalog (clean : Prop) [Decidable clean] (manager : DependencyManager)
    (info : CatalogEntryInfo) :
    (if clean then manager.cleanupDependencies info else manager).catalog = manager.catalog := by
  split
  · exact cleanupDependencies_catalog manager info
  · rfl

/-- New dependencies are links like any others, and make no ownership. -/
theorem createDependencies_foldlM {object : CatalogEntryInfo}
    {dependencies : Option (List LogicalDependency)} {catalog : List CatalogEntry}
    (hrun : (match dependencies with
      | some l => manager.createDependencies object l
      | none => some manager) = some manager')
    (hdeps : ∀ l, dependencies = some l → ∀ dependency ∈ l,
      Admissible catalog (DependencyManager.logicalLink object dependency)) :
    ∃ l : List DependencyInfo,
      l.foldlM DependencyManager.createDependency manager = some manager' ∧
      ∀ info ∈ l, Admissible catalog info ∧ info.subject.flags.ownership = false := by
  cases dependencies with
  | none => exact ⟨[], hrun, fun info hinfo => absurd hinfo List.not_mem_nil⟩
  | some l =>
      dsimp only at hrun
      rw [DependencyManager.createDependencies] at hrun
      split at hrun
      · exact absurd hrun (Option.some_ne_none _).symm
      · refine ⟨_, hrun, fun info hinfo => ?_⟩
        obtain ⟨dependency, hdependency, rfl⟩ := List.mem_map.mp hinfo
        exact ⟨hdeps l rfl dependency hdependency, rfl⟩

theorem Consistent.alterObject (h : Consistent manager links)
    (howned : Owned manager.catalog links) (hseparate : Separate manager.catalog)
    (hold : old ∈ manager.catalog) (hfree : Free manager.catalog old new)
    (hsame : old.info.name = new.info.name → old = new)
    (hsystem : new.isSystemEntry = true → old = new)
    (holdNamed : Named old.info) (hnewNamed : Named new.info) {alterInfo : AlterInfo}
    (hdeps : ∀ l, alterInfo.newDependencies = some l → ∀ dependency ∈ l,
      Admissible (alteredCatalog manager.catalog old new)
        (DependencyManager.logicalLink new.info dependency))
    (hrun : (manager.withAltered old new).alterObject old new alterInfo = some manager') :
    ∃ links', Consistent manager' links' ∧
      manager'.catalog = alteredCatalog manager.catalog old new ∧
      Owned manager'.catalog links' := by
  rw [DependencyManager.alterObject] at hrun
  split at hrun
  · rename_i hsys
    obtain rfl := Option.some.inj hrun
    obtain ⟨links', h', howns⟩ := h.cleaned holdNamed False fun _ => hsystem hsys
    rw [if_neg not_false] at h'
    exact ⟨links', h', rfl, howned.renamed h.visible_of_owns hold hfree fun hown =>
      ⟨_, _, howns hown⟩⟩
  split at hrun
  · exact absurd hrun (Option.some_ne_none _).symm
  obtain ⟨updated, hupdated, hrest⟩ := Option.bind_eq_some_iff.mp hrun
  obtain ⟨links₀, h₀, howns₀⟩ := h.cleaned holdNamed
    (alterInfo.newDependencies.isSome = true ∨ old.info.name ≠ new.info.name)
    fun hkept => hsame (not_not.mp (not_or.mp hkept).2)
  have hcatalog₀ := cleanup_catalog
    (alterInfo.newDependencies.isSome = true ∨ old.info.name ≠ new.info.name)
    (manager.withAltered old new) old.info
  obtain ⟨news, hnews, hnewsAdmissible⟩ := createDependencies_foldlM hupdated hdeps
  obtain ⟨links₁, h₁, hcatalog₁, howns₁⟩ := h₀.foldlM_createDependency
    (fun info hinfo => hcatalog₀ ▸ (hnewsAdmissible info hinfo).1) hnews
  obtain ⟨links₂, h₂, hcatalog₂, howns₂⟩ := h₁.foldlM_createDependency
    (fun info hinfo => (hcatalog₁.trans hcatalog₀) ▸ h.admissible_keptLinks hseparate hold hfree
      (fun hslot => hsame (CatalogEntryInfo.name_of_slot hslot)) holdNamed hnewNamed info hinfo)
    hrest
  have hcatalog : manager'.catalog = alteredCatalog manager.catalog old new :=
    hcatalog₂.trans (hcatalog₁.trans hcatalog₀)
  refine ⟨links₂, h₂, hcatalog, hcatalog ▸ howned.renamed h.visible_of_owns hold hfree ?_⟩
  intro owner entry hown
  obtain hown | ⟨info, hinfo, hgives⟩ := howns₂ hown
  · obtain hown | ⟨info, hinfo, -, -, hgives⟩ := howns₁ hown
    · exact ⟨_, _, howns₀ hown⟩
    · exact absurd hgives (Bool.eq_false_iff.mp (hnewsAdmissible info hinfo).2)
  · exact h.gives_keptLinks howned holdNamed hinfo hgives

end

/-! ## Transactions -/

inductive Action where
  | createDependency (info : DependencyInfo)
  | addOwnership (owner entry : CatalogEntry)
  | removeDependency (info : DependencyInfo)
  | cleanupDependencies (info : CatalogEntryInfo)
  | alterEntry (old : CatalogEntry) (newName : Identifier) (alterInfo : AlterInfo)

def CatalogEntry.rename (entry : CatalogEntry) (newName : Identifier) : CatalogEntry :=
  { entry with info := { entry.info with name := newName } }

/-- `AlterEntry`: the new version of the entry takes its place, unless its
name is taken, and then its links are altered. -/
def DependencyManager.alterEntry (manager : DependencyManager) (old : CatalogEntry)
    (newName : Identifier) (alterInfo : AlterInfo) : Option DependencyManager :=
  if newName ≠ old.info.name ∧
      (lookupEntry manager.catalog (old.rename newName).info).isSome then none
  else (manager.withAltered old (old.rename newName)).alterObject old (old.rename newName) alterInfo

/-- The operation of an action; `none` is an exception, which ends the transaction. -/
def DependencyManager.perform (manager : DependencyManager) : Action → Option DependencyManager
  | .createDependency info => manager.createDependency info
  | .addOwnership owner entry => manager.addOwnership owner entry
  | .removeDependency info => some (manager.removeDependency info)
  | .cleanupDependencies info => some (manager.cleanupDependencies info)
  | .alterEntry old newName alterInfo => manager.alterEntry old newName alterInfo

def Action.entries : Action → List CatalogEntryInfo
  | .createDependency info | .removeDependency info => [info.dependent.entry, info.subject.entry]
  | .addOwnership owner entry => [owner.info, entry.info]
  | .cleanupDependencies info => [info]
  | .alterEntry old newName alterInfo =>
      old.info :: (old.rename newName).info ::
        (alterInfo.newDependencies.getD []).map LogicalDependency.entry

/-- The dependency is on an entry of the catalog, if on any, and no ownership. -/
def Depends (catalog : List CatalogEntry) (info : DependencyInfo) : Prop :=
  info.dependent.flags.ownedBy = false ∧ info.subject.flags.ownership = false ∧
    ∀ entry, lookupEntry catalog info.subject.entry = some entry →
      entry.info = info.subject.entry

/-- An entry can be renamed that no entry is stored in: schemas are not
renamed, and the triggers of a table depend on it. -/
def Renamable (catalog : List CatalogEntry) (old : CatalogEntry) : Prop :=
  old.isSystemEntry = false ∧ old.info.type ≠ .schemaEntry ∧
    ∀ entry ∈ catalog, entry.info.type = .triggerEntry →
      entry.info.schemaPath = old.info.schemaPath → entry.info.table ≠ old.info.name

def Occurs (manager : DependencyManager) : Action → Prop
  | .createDependency info => Depends manager.catalog info
  | .addOwnership owner entry =>
      owner ∈ manager.catalog ∧ entry ∈ manager.catalog ∧ entry.info.type = .sequenceEntry
  | .removeDependency _ | .cleanupDependencies _ => True
  | .alterEntry old newName alterInfo =>
      old ∈ manager.catalog ∧ (newName ≠ old.info.name → Renamable manager.catalog old) ∧
        ∀ dependency ∈ alterInfo.newDependencies.getD [],
          Depends (alteredCatalog manager.catalog old (old.rename newName))
            (DependencyManager.logicalLink (old.rename newName).info dependency)

def transactions (Entry : CatalogEntryInfo → Prop) : Lts DependencyManager Action where
  init manager := manager.subjects = [] ∧ manager.dependents = [] ∧ Separate manager.catalog ∧
    ∀ entry ∈ manager.catalog, Entry entry.info
  step manager action manager' := (∀ info ∈ action.entries, Entry info) ∧
    Occurs manager action ∧ manager.perform action = some manager'

def OwnsOther (_ : DependencyManager) : Action → Prop
  | .addOwnership owner entry => owner ≠ entry
  | _ => True

/-- A state of a transaction, with the links it holds. -/
structure Sound (manager : DependencyManager) (links : Links) : Prop where
  consistent : Consistent manager links
  owned : Owned manager.catalog links
  separate : Separate manager.catalog
  named : ∀ entry ∈ manager.catalog, Named entry.info

variable {manager manager' : DependencyManager} {links : Links}

theorem Depends.admissible {catalog : List CatalogEntry} {info : DependencyInfo}
    (h : Depends catalog info) (hdependent : Named info.dependent.entry)
    (hsubject : Named info.subject.entry) : Admissible catalog info :=
  ⟨hdependent, hsubject, h.2.2, h.1.trans h.2.1.symm⟩

theorem Sound.alterEntry (h : Sound manager links) {old : CatalogEntry} {newName : Identifier}
    {alterInfo : AlterInfo}
    (hentries : ∀ info ∈ (Action.alterEntry old newName alterInfo).entries, Named info)
    (hoccurs : Occurs manager (.alterEntry old newName alterInfo))
    (hrun : manager.alterEntry old newName alterInfo = some manager') :
    ∃ links', Sound manager' links' := by
  obtain ⟨hold, hrename, hdeps⟩ := hoccurs
  have holdNamed : Named old.info := hentries _ List.mem_cons_self
  have hnewNamed : Named (old.rename newName).info :=
    hentries _ (List.mem_cons_of_mem _ List.mem_cons_self)
  have hsame : old.info.name = newName → old = old.rename newName := by
    rintro rfl
    rfl
  rw [DependencyManager.alterEntry] at hrun
  split at hrun
  · exact absurd hrun (Option.some_ne_none _).symm
  rename_i htaken
  have hfree : Free manager.catalog old (old.rename newName) := by
    intro entry hentry hne hslot
    by_cases hname : newName = old.info.name
    · rw [← hsame hname.symm] at hslot
      exact hne (h.separate.eq_of_slot hentry hold hslot)
    · refine htaken ⟨hname, List.find?_isSome.mpr ⟨entry, hentry, decide_eq_true hslot⟩⟩
  obtain ⟨links', h', hcatalog, howned⟩ := h.consistent.alterObject h.owned h.separate hold hfree
    hsame (fun hsystem => by
      by_contra hne
      obtain ⟨hordinary, -, -⟩ := hrename fun hname => hne (hsame hname.symm)
      exact absurd (hordinary ▸ hsystem) Bool.false_ne_true) holdNamed hnewNamed
    (by
      intro l hl dependency hdependency
      rw [hl] at hdeps
      refine (hdeps dependency hdependency).admissible hnewNamed (hentries _ ?_)
      rw [Action.entries, hl]
      exact List.mem_cons_of_mem _ (List.mem_cons_of_mem _ (List.mem_map_of_mem hdependency))) hrun
  refine ⟨links', h', howned, hcatalog ▸ h.separate.altered hfree, ?_⟩
  rw [hcatalog]
  intro entry hentry
  obtain rfl | ⟨hentry, -⟩ := mem_alteredCatalog hentry
  · exact hnewNamed
  · exact h.named entry hentry

theorem Sound.perform (h : Sound manager links) {action : Action}
    (hentries : ∀ info ∈ action.entries, Named info) (hoccurs : Occurs manager action)
    (hother : OwnsOther manager action) (hrun : manager.perform action = some manager') :
    ∃ links', Sound manager' links' := by
  cases action with
  | createDependency info =>
      have hinfo := Depends.admissible hoccurs (hentries _ List.mem_cons_self)
        (hentries _ (List.mem_cons_of_mem _ List.mem_cons_self))
      obtain ⟨links', h', hcatalog, howns⟩ := h.consistent.createDependency hinfo hrun
      refine ⟨links', h', ?_, hcatalog ▸ h.separate, hcatalog ▸ h.named⟩
      rw [hcatalog]
      refine h.owned.mono fun hown => (howns hown).resolve_right fun hgives => ?_
      exact absurd hgives.2.2 (Bool.eq_false_iff.mp hoccurs.2.1)
  | addOwnership owner entry =>
      obtain ⟨howner, hentry, -⟩ := hoccurs
      obtain ⟨links', h', hcatalog, howned⟩ := h.consistent.addOwnership h.owned h.separate howner
        hentry (h.named _ howner) (h.named _ hentry) hother hrun
      exact ⟨links', h', hcatalog ▸ howned, hcatalog ▸ h.separate, hcatalog ▸ h.named⟩
  | removeDependency info =>
      obtain rfl := Option.some.inj hrun
      exact ⟨_, h.consistent.removeDependency (hentries _ List.mem_cons_self)
        (hentries _ (List.mem_cons_of_mem _ List.mem_cons_self)),
        h.owned.mono fun ⟨dep, hlink, hown⟩ => ⟨dep, Links.of_erase hlink, hown⟩,
        h.separate, h.named⟩
  | cleanupDependencies info =>
      obtain rfl := Option.some.inj hrun
      have hcatalog := cleanupDependencies_catalog manager info
      refine ⟨links.without info, h.consistent.cleanupDependencies (hentries _ List.mem_cons_self),
        ?_, hcatalog ▸ h.separate, hcatalog ▸ h.named⟩
      rw [hcatalog]
      exact h.owned.mono fun ⟨dep, hlink, hown⟩ => ⟨dep, (Links.of_without hlink).1, hown⟩
  | alterEntry old newName alterInfo => exact h.alterEntry hentries hoccurs hrun

/-- Every state of a transaction over entries told apart is sound. -/
theorem sound (h : ((transactions Named).restrict OwnsOther).Reachable manager) :
    ∃ links, Sound manager links := by
  refine Lts.Reachable.invariant_restrict (I := fun manager => ∃ links, Sound manager links)
    ?_ ?_ h
  · rintro manager ⟨hsubjects, hdependents, hseparate, hnamed⟩
    have hempty : ∀ {side set}, set = [] → Represents side set fun _ _ => none := by
      rintro side set rfl
      exact ⟨List.nodup_nil, fun entry hentry => absurd hentry List.not_mem_nil,
        fun hlink => absurd hlink (Option.some_ne_none _).symm⟩
    have hnone : ∀ {owner entry}, ¬Owns (fun _ _ => none) owner entry := fun ⟨_, hlink, _⟩ =>
      absurd hlink (Option.some_ne_none _).symm
    refine ⟨fun _ _ => none, ⟨⟨hempty hsubjects, hempty hdependents⟩, ?_, ?_⟩, ⟨?_, ?_, ?_⟩,
      hseparate, hnamed⟩
    · exact fun hlink => absurd hlink (Option.some_ne_none _).symm
    · exact fun hlink => absurd hlink (Option.some_ne_none _).symm
    · exact fun hown => absurd hown hnone
    · exact fun hown => absurd hown hnone
    · exact fun hown => absurd hown hnone
  · rintro manager action manager' hother ⟨links, hsound⟩ ⟨hentries, hoccurs, hrun⟩
    exact hsound.perform hentries hoccurs hother hrun

end Dependencies

end MiniDuck
