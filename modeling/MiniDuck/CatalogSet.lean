import MiniDuck.Lts
import MiniDuck.Transaction

/-!
# Version chains of a catalog set

A catalog set keeps for every name a chain of entries, the newest on
top. Entries are objects: they are known by their address, and their
timestamp is kept by address, since it is the only part of a linked
entry that a commit changes. Sets without a default generator are
modelled, and the checks of `internal` and `temporary` entries, which
throw before anything is changed, are left out.

`ok_reachable` gives the shape of the chains in every reachable set.
Every change of a transaction puts entries on top of chains and pushes
what was on top before (`Pushes`). `Pushes.undone` takes a whole
sequence of such changes back, the newest first, and `Pushes.stamped`
says that the entries on top of what was pushed carry the id of the
transaction, so that a commit and its revert change nothing.
-/

namespace MiniDuck

inductive CatalogType
  | invalid | tableEntry | schemaEntry | viewEntry | indexEntry | preparedStatement
  | sequenceEntry | collationEntry | typeEntry | databaseEntry | coordinateSystemEntry
  | triggerEntry | tableFunctionEntry | scalarFunctionEntry | aggregateFunctionEntry
  | pragmaFunctionEntry | copyFunctionEntry | macroEntry | tableMacroEntry
  | windowFunctionEntry | deletedEntry | renamedEntry | secretEntry | secretTypeEntry
  | secretFunctionEntry | dependencyEntry
  deriving Repr, DecidableEq

/-- A linked entry without its timestamp. Dummies and tombstones have no value. -/
structure CatalogEntry (N V : Type) where
  address : Nat
  name : N
  type : CatalogType
  deleted : Bool
  value : Option V
  deriving Repr, DecidableEq

/-- A pointer to an entry of a set, with the name of its chain. -/
structure CatalogEntryRef (N : Type) where
  name : N
  address : Nat
  deriving Repr, DecidableEq

def CatalogEntry.ref {N V : Type} (entry : CatalogEntry N V) : CatalogEntryRef N :=
  ⟨entry.name, entry.address⟩

/-- What a caller gives a new entry. Only `StartChain` makes entries of type `INVALID`. -/
structure NewEntry (N V : Type) where
  name : N
  type : CatalogType
  deleted : Bool
  value : Option V
  typed : type ≠ .invalid

/-- The chains by name, the newest entry first, and the timestamps by address. -/
structure CatalogSet (N V : Type) where
  map : N → List (CatalogEntry N V)
  timestamps : Nat → Nat
  nextAddress : Nat

/-- The changes a transaction makes to a set. -/
inductive CatalogOp (N V : Type)
  | createEntry (name : N) (type : { type : CatalogType // type ≠ .invalid }) (value : V)
  | dropEntry (name : N)
  | alterEntry (name : N) (alter : CatalogEntry N V → Option (NewEntry N V)) (extraDataSize : Nat)

/-- What a change leaves: the set, the entries that were pushed to the undo buffer with the size
of their extra data, and the result. -/
structure CatalogChange (N V : Type) where
  set : CatalogSet N V
  pushed : List (CatalogEntryRef N × Nat)
  result : Except String Bool

/-- Goes on with the next change where this one has returned `true`. -/
def CatalogChange.andThen {N V : Type} (c : CatalogChange N V)
    (next : CatalogSet N V → CatalogChange N V) : CatalogChange N V :=
  match c.result with
  | .ok true => { next c.set with pushed := c.pushed ++ (next c.set).pushed }
  | _ => c

namespace CatalogSet

variable {N V : Type} [DecidableEq N]

def hasConflict (view : SnapshotView) (timestamp : Nat) : Bool := !view.sees timestamp

/-- `GetEntryForTransaction`: the entry and whether it is visible. -/
def getEntryForTransaction (self : CatalogSet N V) (view : SnapshotView) :
    List (CatalogEntry N V) → Option (CatalogEntry N V × Bool)
  | [] => none
  | [entry] => some (entry, false)
  | entry :: child :: rest =>
      if view.sees (self.timestamps entry.address) then some (entry, true)
      else getEntryForTransaction self view (child :: rest)

def getEntry (self : CatalogSet N V) (view : SnapshotView) (name : N) :
    Option (CatalogEntry N V) :=
  match self.getEntryForTransaction view (self.map name) with
  | some (entry, _) => if entry.deleted then none else some entry
  | none => none

/-- A new object on top of the chain of its name: `AddEntry` where there is no chain, else
`UpdateEntry`. -/
def linkEntry (self : CatalogSet N V) (timestamp : Nat) (name : N) (type : CatalogType)
    (deleted : Bool) (value : Option V) : CatalogSet N V where
  map := Function.update self.map name (⟨self.nextAddress, name, type, deleted, value⟩ ::
    self.map name)
  timestamps := Function.update self.timestamps self.nextAddress timestamp
  nextAddress := self.nextAddress + 1

def startChain (self : CatalogSet N V) (name : N) : CatalogSet N V :=
  self.linkEntry 0 name .invalid true none

section

variable [ToString N]

def createCommittedEntry (self : CatalogSet N V) (entry : NewEntry N V) : CatalogSet N V :=
  match self.map entry.name with
  | [] => self.linkEntry 0 entry.name entry.type entry.deleted entry.value
  | _ => self

/-- Puts the new entry of a transaction on top of a chain and pushes the old top. -/
def updateEntry (self : CatalogSet N V) (transactionId : Nat) (entry : NewEntry N V)
    (extraDataSize : Nat) : CatalogChange N V :=
  match self.map entry.name with
  | [] => ⟨self, [], .error s!"Entry with name \"{entry.name}\" does not exist"⟩
  | top :: _ =>
      ⟨self.linkEntry transactionId entry.name entry.type entry.deleted entry.value,
        [(top.ref, extraDataSize)], .ok true⟩

def createEntryInternal (self : CatalogSet N V) (view : SnapshotView) (entry : NewEntry N V)
    (shouldBeEmpty : Bool) : CatalogChange N V :=
  match self.map entry.name with
  | [] => (self.startChain entry.name).updateEntry view.transactionId entry 0
  | top :: _ =>
      if shouldBeEmpty && hasConflict view (self.timestamps top.address) then
        ⟨self, [], .error s!"Catalog write-write conflict on create with \"{top.name}\""⟩
      else if shouldBeEmpty && !top.deleted then ⟨self, [], .ok false⟩
      else self.updateEntry view.transactionId entry 0

def createEntry (self : CatalogSet N V) (view : SnapshotView) (name : N)
    (type : { type : CatalogType // type ≠ .invalid }) (value : V) : CatalogChange N V :=
  self.createEntryInternal view ⟨name, type.val, false, some value, type.property⟩ true

def getEntryInternal (self : CatalogSet N V) (view : SnapshotView) (name : N) :
    Except String (Option (CatalogEntry N V)) :=
  match self.map name with
  | [] => .ok none
  | top :: _ =>
      if hasConflict view (self.timestamps top.address) then
        .error s!"Catalog write-write conflict on alter with {top.name}"
      else if top.deleted then .ok none
      else .ok (some top)

def dropEntryInternal (self : CatalogSet N V) (view : SnapshotView) (name : N) :
    CatalogChange N V :=
  match self.getEntryInternal view name with
  | .error e => ⟨self, [], .error e⟩
  | .ok none => ⟨self, [], .ok false⟩
  | .ok (some entry) =>
      self.updateEntry view.transactionId ⟨entry.name, .deletedEntry, true, none, by decide⟩ 0

/-- `CatalogSet::DropEntry`, once the dependencies are dropped. -/
def dropEntry (self : CatalogSet N V) (view : SnapshotView) (name : N) : CatalogChange N V :=
  match self.getEntry view name with
  | none => ⟨self, [], .ok false⟩
  | some _ => self.dropEntryInternal view name

def renameEntryInternal (self : CatalogSet N V) (view : SnapshotView) (old : CatalogEntry N V)
    (newName : N) : CatalogChange N V :=
  match self.getEntryForTransaction view (self.map newName) with
  | some (⟨_, _, _, false, _⟩, _) =>
      ⟨self, [], .error s!"Could not rename {old.name} to {newName}: another entry with this name already exists!"⟩
  | _ =>
      ((self.createEntryInternal view ⟨old.name, .renamedEntry, false, none, by decide⟩
        false).andThen fun s => s.dropEntryInternal view old.name).andThen fun s =>
          s.createEntryInternal view ⟨newName, .renamedEntry, false, none, by decide⟩ true

/-- `CatalogSet::AlterEntry`. What the alteration makes of the entry is up to `alter`: nothing,
or a new entry, possibly under another name. -/
def alterEntry (self : CatalogSet N V) (view : SnapshotView) (name : N)
    (alter : CatalogEntry N V → Option (NewEntry N V)) (extraDataSize : Nat) :
    CatalogChange N V :=
  match self.getEntry view name with
  | none => ⟨self, [], .ok false⟩
  | some entry =>
      match alter entry with
      | none => ⟨self, [], .ok true⟩
      | some value =>
          match self.getEntryInternal view name with
          | .error e => ⟨self, [], .error e⟩
          | .ok none =>
              ⟨self, [], .error "Attempting to dereference an optional pointer that is not set"⟩
          | .ok (some entry) =>
              (if value.name ≠ entry.name then self.renameEntryInternal view entry value.name
                else ⟨self, [], .ok true⟩).andThen fun s =>
                  s.updateEntry view.transactionId value extraDataSize

def run (self : CatalogSet N V) (view : SnapshotView) : CatalogOp N V → CatalogChange N V
  | .createEntry name type value => self.createEntry view name type value
  | .dropEntry name => self.dropEntry view name
  | .alterEntry name alter extraDataSize => self.alterEntry view name alter extraDataSize

end

def findParent (address : Nat) : List (CatalogEntry N V) →
    Option (CatalogEntry N V × CatalogEntry N V)
  | parent :: entry :: rest =>
      if entry.address = address then some (parent, entry)
      else findParent address (entry :: rest)
  | _ => none

def updateTimestamp (self : CatalogSet N V) (entry : CatalogEntry N V) (timestamp : Nat) :
    CatalogSet N V :=
  { self with timestamps := Function.update self.timestamps entry.address timestamp }

/-- What `CommitEntry` changes for a pushed entry. -/
def commitEntry (self : CatalogSet N V) (commitId : Nat) (ref : CatalogEntryRef N) :
    CatalogSet N V :=
  match findParent ref.address (self.map ref.name) with
  | none => self
  | some (parent, _) => self.updateTimestamp parent commitId

/-- What `RevertCommit` does for a pushed entry. -/
def revertEntry (self : CatalogSet N V) (transactionId : Nat) (ref : CatalogEntryRef N) :
    CatalogSet N V :=
  match findParent ref.address (self.map ref.name) with
  | none => self
  | some (parent, entry) =>
      let self := self.updateTimestamp parent transactionId
      if entry.name ≠ parent.name then self.updateTimestamp entry transactionId else self

/-- `CatalogEntryMap::DropEntry`. -/
def unlinkEntry (self : CatalogSet N V) (entry : CatalogEntry N V) : CatalogSet N V :=
  { self with
    map := Function.update self.map entry.name
      ((self.map entry.name).filter fun e => decide (e.address ≠ entry.address)) }

def undo (self : CatalogSet N V) (ref : CatalogEntryRef N) : CatalogSet N V :=
  match findParent ref.address (self.map ref.name) with
  | none => self
  | some (parent, entry) =>
      let self := self.unlinkEntry parent
      if entry.type = .invalid then self.unlinkEntry entry else self

/-- `CatalogSet::CleanupEntry`, for a pushed entry. -/
def cleanupEntry (self : CatalogSet N V) (ref : CatalogEntryRef N) : CatalogSet N V :=
  match findParent ref.address (self.map ref.name) with
  | none => self
  | some (parent, entry) =>
      let self := self.unlinkEntry entry
      if parent.deleted && (self.map parent.name).length == 1 then self.unlinkEntry parent
      else self

/-! ## Changes put entries on top -/

/-- Names and addresses of the linked entries are right. -/
structure Ok (set : CatalogSet N V) : Prop where
  names : ∀ name, ∀ e ∈ set.map name, e.name = name
  fresh : ∀ name, ∀ e ∈ set.map name, e.address < set.nextAddress
  nodup : ∀ name, ((set.map name).map CatalogEntry.address).Nodup

/-- The dummy entry a chain was started with is only at its end, and not alone. -/
def RootedChain (chain : List (CatalogEntry N V)) : Prop :=
  (∀ e ∈ chain.head?, e.type ≠ .invalid) ∧ ∀ e ∈ chain.dropLast, e.type ≠ .invalid

def Rooted (set : CatalogSet N V) : Prop := ∀ name, RootedChain (set.map name)

/-- A transaction got from one set to another by linking entries on top of chains, and pushed
these pointers. -/
inductive Pushes (tid : Nat) (start : CatalogSet N V) :
    List (CatalogEntryRef N) → CatalogSet N V → Prop
  | refl : Pushes tid start [] start
  | existing {refs : List (CatalogEntryRef N)} {set : CatalogSet N V} {top : CatalogEntry N V}
      {rest : List (CatalogEntry N V)} (entry : NewEntry N V) :
      Pushes tid start refs set → set.map entry.name = top :: rest →
      Pushes tid start (refs ++ [top.ref])
        (set.linkEntry tid entry.name entry.type entry.deleted entry.value)
  | started {refs : List (CatalogEntryRef N)} {set : CatalogSet N V} (entry : NewEntry N V) :
      Pushes tid start refs set → set.map entry.name = [] →
      Pushes tid start (refs ++ [⟨entry.name, set.nextAddress⟩])
        ((set.startChain entry.name).linkEntry tid entry.name entry.type entry.deleted
          entry.value)

variable {tid : Nat} {refs : List (CatalogEntryRef N)}

theorem Pushes.trans {a b c : CatalogSet N V} {refs' : List (CatalogEntryRef N)}
    (h : Pushes tid a refs b) (h' : Pushes tid b refs' c) : Pushes tid a (refs ++ refs') c := by
  induction h' with
  | refl => rwa [List.append_nil]
  | existing entry _ hmap ih => exact List.append_assoc _ _ _ ▸ ih.existing entry hmap
  | started entry _ hmap ih => exact List.append_assoc _ _ _ ▸ ih.started entry hmap

def Links (tid : Nat) (set : CatalogSet N V) (c : CatalogChange N V) : Prop :=
  Pushes tid set (c.pushed.map Prod.fst) c.set

theorem links_unchanged (tid : Nat) (set : CatalogSet N V) (result : Except String Bool) :
    Links tid set ⟨set, [], result⟩ :=
  .refl

variable {set : CatalogSet N V}

theorem Links.andThen {c : CatalogChange N V} {next : CatalogSet N V → CatalogChange N V}
    (h : Links tid set c) (hnext : ∀ s, Links tid s (next s)) : Links tid set (c.andThen next) := by
  rw [CatalogChange.andThen]
  split
  · rw [Links, List.map_append]
    exact h.trans (hnext c.set)
  · exact h

section

variable [ToString N]

theorem updateEntry_links (tid : Nat) (set : CatalogSet N V) (entry : NewEntry N V)
    (extraDataSize : Nat) : Links tid set (set.updateEntry tid entry extraDataSize) := by
  rw [updateEntry]
  split
  · exact links_unchanged tid set _
  · next hmap => exact Pushes.refl.existing entry hmap

theorem createEntryInternal_links (view : SnapshotView) (set : CatalogSet N V)
    (entry : NewEntry N V) (shouldBeEmpty : Bool) :
    Links view.transactionId set (set.createEntryInternal view entry shouldBeEmpty) := by
  rw [createEntryInternal]
  split
  · next hmap =>
      have hstart := (Pushes.refl : Pushes view.transactionId set [] set).started entry hmap
      have htop : (set.startChain entry.name).map entry.name =
          [⟨set.nextAddress, entry.name, .invalid, true, none⟩] := by
        simp [startChain, linkEntry, hmap]
      rw [updateEntry, htop]
      exact hstart
  · split_ifs
    · exact links_unchanged _ _ _
    · exact links_unchanged _ _ _
    · exact updateEntry_links _ _ _ _

theorem dropEntryInternal_links (view : SnapshotView) (set : CatalogSet N V) (name : N) :
    Links view.transactionId set (set.dropEntryInternal view name) := by
  rw [dropEntryInternal]
  split
  · exact links_unchanged _ _ _
  · exact links_unchanged _ _ _
  · exact updateEntry_links _ _ _ _

theorem createEntry_links (view : SnapshotView) (set : CatalogSet N V) (name : N)
    (type : { type : CatalogType // type ≠ .invalid }) (value : V) :
    Links view.transactionId set (set.createEntry view name type value) :=
  createEntryInternal_links _ _ _ _

theorem dropEntry_links (view : SnapshotView) (set : CatalogSet N V) (name : N) :
    Links view.transactionId set (set.dropEntry view name) := by
  rw [dropEntry]
  split
  · exact links_unchanged _ _ _
  · exact dropEntryInternal_links _ _ _

theorem renameEntryInternal_links (view : SnapshotView) (set : CatalogSet N V)
    (old : CatalogEntry N V) (newName : N) :
    Links view.transactionId set (set.renameEntryInternal view old newName) := by
  rw [renameEntryInternal]
  split
  · exact links_unchanged _ _ _
  · refine Links.andThen (Links.andThen (createEntryInternal_links _ _ _ _) fun s => ?_)
      fun s => createEntryInternal_links _ _ _ _
    exact dropEntryInternal_links _ _ _

theorem alterEntry_links (view : SnapshotView) (set : CatalogSet N V) (name : N)
    (alter : CatalogEntry N V → Option (NewEntry N V)) (extraDataSize : Nat) :
    Links view.transactionId set (set.alterEntry view name alter extraDataSize) := by
  rw [alterEntry]
  split
  · exact links_unchanged _ _ _
  · split
    · exact links_unchanged _ _ _
    · split
      · exact links_unchanged _ _ _
      · exact links_unchanged _ _ _
      · refine Links.andThen ?_ fun s => updateEntry_links _ _ _ _
        split_ifs
        · exact renameEntryInternal_links _ _ _ _
        · exact links_unchanged _ _ _

theorem run_links (view : SnapshotView) (set : CatalogSet N V) (op : CatalogOp N V) :
    Links view.transactionId set (set.run view op) := by
  cases op with
  | createEntry name type value => exact createEntry_links _ _ _ _ _
  | dropEntry name => exact dropEntry_links _ _ _
  | alterEntry name alter extraDataSize => exact alterEntry_links _ _ _ _ _

end

/-! ## Taking changes back -/

theorem linkEntry_map_self (set : CatalogSet N V) (timestamp : Nat) (name : N)
    (type : CatalogType) (deleted : Bool) (value : Option V) :
    (set.linkEntry timestamp name type deleted value).map name =
      ⟨set.nextAddress, name, type, deleted, value⟩ :: set.map name :=
  Function.update_self _ _ _

theorem linkEntry_map_of_ne (set : CatalogSet N V) (timestamp : Nat) {name name' : N}
    (type : CatalogType) (deleted : Bool) (value : Option V) (hne : name' ≠ name) :
    (set.linkEntry timestamp name type deleted value).map name' = set.map name' :=
  Function.update_of_ne hne _ _

theorem linkEntry_timestamps_of_lt (set : CatalogSet N V) (timestamp : Nat) (name : N)
    (type : CatalogType) (deleted : Bool) (value : Option V) {a : Nat}
    (ha : a < set.nextAddress) :
    (set.linkEntry timestamp name type deleted value).timestamps a = set.timestamps a :=
  Function.update_of_ne ha.ne _ _

theorem update_linkEntry_map (set : CatalogSet N V) (timestamp : Nat) (name : N)
    (type : CatalogType) (deleted : Bool) (value : Option V)
    (chain : List (CatalogEntry N V)) :
    Function.update (set.linkEntry timestamp name type deleted value).map name chain =
      Function.update set.map name chain :=
  Function.update_idem _ _ _

theorem Ok.linkEntry (h : set.Ok) (timestamp : Nat) (name : N) (type : CatalogType) (deleted : Bool)
    (value : Option V) : (set.linkEntry timestamp name type deleted value).Ok := by
  refine ⟨fun name' e he => ?_, fun name' e he => ?_, fun name' => ?_⟩
  · by_cases hname : name' = name
    · subst hname
      rw [linkEntry_map_self] at he
      rcases List.mem_cons.mp he with rfl | he
      · rfl
      · exact h.names name' e he
    · rw [linkEntry_map_of_ne _ _ _ _ _ hname] at he
      exact h.names name' e he
  · by_cases hname : name' = name
    · subst hname
      rw [linkEntry_map_self] at he
      rcases List.mem_cons.mp he with rfl | he
      · exact Nat.lt_succ_self _
      · exact Nat.lt_succ_of_lt (h.fresh name' e he)
    · rw [linkEntry_map_of_ne _ _ _ _ _ hname] at he
      exact Nat.lt_succ_of_lt (h.fresh name' e he)
  · by_cases hname : name' = name
    · subst hname
      rw [linkEntry_map_self, List.map_cons, List.nodup_cons]
      refine ⟨fun hmem => ?_, h.nodup name'⟩
      obtain ⟨e, he, haddress⟩ := List.mem_map.mp hmem
      exact absurd haddress (h.fresh name' e he).ne
    · rw [linkEntry_map_of_ne _ _ _ _ _ hname]
      exact h.nodup name'

theorem Rooted.linkEntry (timestamp : Nat) (entry : NewEntry N V)
    (hother : ∀ name, name ≠ entry.name → RootedChain (set.map name))
    (h : ∀ e ∈ (set.map entry.name).dropLast, e.type ≠ .invalid) :
    (set.linkEntry timestamp entry.name entry.type entry.deleted entry.value).Rooted := by
  intro name
  by_cases hname : name = entry.name
  · subst hname
    rw [linkEntry_map_self]
    refine ⟨fun e he => ?_, fun e he => ?_⟩
    · obtain rfl : _ = e := by simpa using he
      exact entry.typed
    · cases hchain : set.map entry.name with
      | nil => simp [hchain] at he
      | cons top rest =>
          rw [hchain] at he h
          rcases List.mem_cons.mp he with rfl | he
          · exact entry.typed
          · exact h e he
  · rw [linkEntry_map_of_ne _ _ _ _ _ hname]
    exact hother name hname

variable {start : CatalogSet N V}

theorem Pushes.ok (h : Pushes tid start refs set) (hok : start.Ok) (hrooted : start.Rooted) :
    set.Ok ∧ set.Rooted := by
  induction h with
  | refl => exact ⟨hok, hrooted⟩
  | existing entry _ _ ih =>
      exact ⟨ih.1.linkEntry _ _ _ _ _,
        .linkEntry _ entry (fun name _ => ih.2 name) (ih.2 entry.name).2⟩
  | started entry _ hmap ih =>
      refine ⟨(ih.1.linkEntry _ _ _ _ _).linkEntry _ _ _ _ _, .linkEntry _ entry ?_ ?_⟩
      · intro name hname
        rw [startChain, linkEntry_map_of_ne _ _ _ _ _ hname]
        exact ih.2 name
      · rw [startChain, linkEntry_map_self, hmap]
        simp

/-! ## Reachable sets -/

/-- What happens to a set, whoever does it. -/
inductive CatalogEvent (N V : Type)
  | createCommitted (entry : NewEntry N V)
  | change (view : SnapshotView) (op : CatalogOp N V)
  | commit (commitId : Nat) (entry : CatalogEntryRef N)
  | revert (transactionId : Nat) (entry : CatalogEntryRef N)
  | undo (entry : CatalogEntryRef N)
  | cleanup (entry : CatalogEntryRef N)

def afterEvent [ToString N] (self : CatalogSet N V) : CatalogEvent N V → CatalogSet N V
  | .createCommitted entry => self.createCommittedEntry entry
  | .change view op => (self.run view op).set
  | .commit commitId entry => self.commitEntry commitId entry
  | .revert transactionId entry => self.revertEntry transactionId entry
  | .undo entry => self.undo entry
  | .cleanup entry => self.cleanupEntry entry

def catalogLts [ToString N] : Lts (CatalogSet N V) (CatalogEvent N V) where
  init set := ∀ name, set.map name = []
  step set event set' := set' = set.afterEvent event

omit [DecidableEq N] in
theorem findParent_mem {address : Nat} {parent entry : CatalogEntry N V} :
    {chain : List (CatalogEntry N V)} → findParent address chain = some (parent, entry) →
    parent ∈ chain ∧ entry ∈ chain ∧ entry.address = address
  | [], h => by simp [findParent] at h
  | [_], h => by simp [findParent] at h
  | p :: e :: rest, h => by
      rw [findParent] at h
      split_ifs at h with haddress
      · cases h
        exact ⟨by simp, by simp, haddress⟩
      · obtain ⟨hparent, hentry, haddress⟩ := findParent_mem h
        exact ⟨List.mem_cons_of_mem _ hparent, List.mem_cons_of_mem _ hentry, haddress⟩

omit [DecidableEq N] in
theorem findParent_split {address : Nat} {parent entry : CatalogEntry N V} :
    {chain : List (CatalogEntry N V)} → findParent address chain = some (parent, entry) →
    ∃ l r, chain = l ++ parent :: entry :: r
  | [], h => by simp [findParent] at h
  | [_], h => by simp [findParent] at h
  | p :: e :: rest, h => by
      rw [findParent] at h
      split_ifs at h
      · cases h
        exact ⟨[], rest, rfl⟩
      · obtain ⟨l, r, hchain⟩ := findParent_split h
        exact ⟨p :: l, r, by rw [hchain, List.cons_append]⟩

theorem Ok.unlinkEntry (h : set.Ok) (entry : CatalogEntry N V) : (set.unlinkEntry entry).Ok := by
  have hsub : ∀ name, ((set.unlinkEntry entry).map name).Sublist (set.map name) := by
    intro name
    by_cases hname : name = entry.name
    · subst hname
      simp only [CatalogSet.unlinkEntry, Function.update_self]
      exact List.filter_sublist
    · simp only [CatalogSet.unlinkEntry, Function.update_of_ne hname]
      exact List.Sublist.refl _
  exact ⟨fun name e he => h.names name e ((hsub name).mem he),
    fun name e he => h.fresh name e ((hsub name).mem he),
    fun name => (h.nodup name).sublist ((hsub name).map _)⟩

theorem Ok.map_unlinkEntry (h : set.Ok) {name : N} {entry : CatalogEntry N V}
    {l r : List (CatalogEntry N V)} (hmap : set.map name = l ++ entry :: r) :
    (set.unlinkEntry entry).map = Function.update set.map name (l ++ r) := by
  have hname : entry.name = name := h.names name entry (by simp [hmap])
  have hnodup := h.nodup name
  rw [hmap, List.map_append, List.map_cons] at hnodup
  obtain ⟨-, hright, hdisjoint⟩ := List.nodup_append.mp hnodup
  have hl : ∀ e ∈ l, e.address ≠ entry.address := fun e he =>
    hdisjoint _ (List.mem_map_of_mem he) _ List.mem_cons_self
  have hr : ∀ e ∈ r, e.address ≠ entry.address := fun e he heq =>
    (List.nodup_cons.mp hright).1 (heq ▸ List.mem_map_of_mem he)
  simp only [CatalogSet.unlinkEntry, hname, hmap]
  rw [List.filter_append, List.filter_cons_of_neg (by simp),
    List.filter_eq_self.mpr fun e he => by simpa using hl e he,
    List.filter_eq_self.mpr fun e he => by simpa using hr e he]

variable {s t : CatalogSet N V}

theorem Rooted.update (h : s.Rooted) (name : N) (chain : List (CatalogEntry N V))
    (hmap : t.map = Function.update s.map name chain) (hchain : RootedChain chain) : t.Rooted := by
  intro name'
  rw [hmap]
  by_cases hname : name' = name
  · subst hname
    rwa [Function.update_self]
  · rw [Function.update_of_ne hname]
    exact h name'

omit [DecidableEq N] in
/-- A chain may lose an entry that is not its end, unless only the dummy entry is left. -/
theorem RootedChain.remove {l r : List (CatalogEntry N V)} {entry e : CatalogEntry N V}
    (h : RootedChain (l ++ entry :: e :: r)) (he : e.type ≠ .invalid) :
    RootedChain (l ++ e :: r) := by
  obtain ⟨hhead, hinit⟩ := h
  rw [List.dropLast_append_of_ne_nil (by simp), List.dropLast_cons_of_ne_nil (by simp)] at hinit
  refine ⟨fun x hx => ?_, fun x hx => ?_⟩
  · cases l with
    | nil =>
        obtain rfl : e = x := by simpa using hx
        exact he
    | cons y l => exact hhead x hx
  · rw [List.dropLast_append_of_ne_nil (by simp)] at hx
    refine hinit x (List.mem_append.mpr ?_)
    rcases List.mem_append.mp hx with hx | hx
    · exact Or.inl hx
    · exact Or.inr (List.mem_cons_of_mem _ hx)

omit [DecidableEq N] in
/-- The entries above another are not dummies, so they are a chain of their own. -/
theorem RootedChain.above {l r : List (CatalogEntry N V)} {e : CatalogEntry N V}
    (h : RootedChain (l ++ e :: r)) : RootedChain l := by
  have hinit := h.2
  rw [List.dropLast_append_of_ne_nil (by simp)] at hinit
  refine ⟨fun x hx => hinit x (List.mem_append_left _ (List.mem_of_mem_head? hx)),
    fun x hx => hinit x (List.mem_append_left _ (List.dropLast_subset l hx))⟩

omit [DecidableEq N] in
/-- A chain may lose an entry that has a parent. -/
theorem RootedChain.cleanup {l r : List (CatalogEntry N V)} {parent entry : CatalogEntry N V}
    (h : RootedChain (l ++ parent :: entry :: r)) : RootedChain (l ++ parent :: r) := by
  obtain ⟨hhead, hinit⟩ := h
  rw [List.dropLast_append_of_ne_nil (by simp), List.dropLast_cons_of_ne_nil (by simp)] at hinit
  refine ⟨fun x hx => ?_, fun x hx => ?_⟩
  · cases l with
    | nil => exact hhead x (by simpa using hx)
    | cons y l => exact hhead x hx
  · rw [List.dropLast_append_of_ne_nil (by simp)] at hx
    refine hinit x (List.mem_append.mpr ?_)
    rcases List.mem_append.mp hx with hx | hx
    · exact Or.inl hx
    · cases r with
      | nil => simp at hx
      | cons y r =>
          rw [List.dropLast_cons_of_ne_nil (by simp)] at hx
          rw [List.dropLast_cons_of_ne_nil (by simp)]
          rcases List.mem_cons.mp hx with rfl | hx
          · exact Or.inr List.mem_cons_self
          · exact Or.inr (List.mem_cons_of_mem _ (List.mem_cons_of_mem _ hx))

theorem Ok.undo (h : set.Ok) (hrooted : set.Rooted) (ref : CatalogEntryRef N) :
    (set.undo ref).Ok ∧ (set.undo ref).Rooted := by
  rw [CatalogSet.undo]
  split
  · exact ⟨h, hrooted⟩
  · next parent entry hfind =>
      obtain ⟨l, r, hchain⟩ := findParent_split hfind
      have hunlink := h.map_unlinkEntry hchain
      have hok := h.unlinkEntry parent
      have hroot := hrooted ref.name
      rw [hchain] at hroot
      split_ifs with htype
      · -- the dummy goes with its parent: what is left stood above both
        have hmap : (set.unlinkEntry parent).map ref.name = l ++ entry :: r := by
          rw [hunlink, Function.update_self]
        have hr : r = [] := by
          by_contra hne
          refine hroot.2 entry ?_ htype
          rw [List.dropLast_append_of_ne_nil (by simp), List.dropLast_cons_of_ne_nil (by simp),
            List.dropLast_cons_of_ne_nil hne]
          simp
        refine ⟨hok.unlinkEntry entry, hrooted.update ref.name l ?_ hroot.above⟩
        rw [hok.map_unlinkEntry hmap, hunlink, Function.update_idem, hr, List.append_nil]
      · exact ⟨hok, hrooted.update _ _ hunlink (hroot.remove htype)⟩

theorem Ok.cleanupEntry (h : set.Ok) (hrooted : set.Rooted) (ref : CatalogEntryRef N) :
    (set.cleanupEntry ref).Ok ∧ (set.cleanupEntry ref).Rooted := by
  rw [CatalogSet.cleanupEntry]
  split
  · exact ⟨h, hrooted⟩
  · next parent entry hfind =>
      obtain ⟨l, r, hchain⟩ := findParent_split hfind
      have hsplit : set.map ref.name = (l ++ [parent]) ++ entry :: r := by rw [hchain]; simp
      have hunlink := h.map_unlinkEntry hsplit
      have hok := h.unlinkEntry entry
      have hroot := hrooted ref.name
      rw [hchain] at hroot
      have hrest : RootedChain (l ++ [parent] ++ r) := by
        rw [List.append_assoc]
        exact hroot.cleanup
      have hmap : (set.unlinkEntry entry).map ref.name = l ++ parent :: r := by
        rw [hunlink, Function.update_self, List.append_assoc, List.singleton_append]
      have hname : parent.name = ref.name := h.names _ _ (findParent_mem hfind).1
      dsimp only
      split_ifs with hlast
      · have hlength : (l ++ parent :: r).length = 1 := by
          rw [hname, hmap, Bool.and_eq_true, beq_iff_eq] at hlast
          exact hlast.2
        have hl : l = [] := List.eq_nil_of_length_eq_zero (by
          simp only [List.length_append, List.length_cons] at hlength
          omega)
        have hr : r = [] := List.eq_nil_of_length_eq_zero (by
          simp only [List.length_append, List.length_cons] at hlength
          omega)
        refine ⟨hok.unlinkEntry parent, hrooted.update ref.name [] ?_ ?_⟩
        · rw [hok.map_unlinkEntry hmap, hunlink, Function.update_idem, hl, hr, List.append_nil]
        · exact ⟨by simp, by simp⟩
      · exact ⟨hok, hrooted.update _ _ hunlink hrest⟩

theorem Ok.undo_existing (h : set.Ok) {entry : NewEntry N V} {top : CatalogEntry N V}
    {rest : List (CatalogEntry N V)} (hmap : set.map entry.name = top :: rest)
    (htop : top.type ≠ .invalid) :
    ((set.linkEntry tid entry.name entry.type entry.deleted entry.value).undo top.ref).map =
      set.map := by
  have hname : top.name = entry.name := h.names _ _ (hmap ▸ List.mem_cons_self)
  have hfind : findParent top.address
      ((set.linkEntry tid entry.name entry.type entry.deleted entry.value).map top.name) =
        some (⟨set.nextAddress, entry.name, entry.type, entry.deleted, entry.value⟩, top) := by
    rw [hname, linkEntry_map_self, hmap, findParent, if_pos rfl]
  have hunlink := (h.linkEntry tid entry.name entry.type entry.deleted entry.value).map_unlinkEntry
    (l := []) (linkEntry_map_self set tid entry.name entry.type entry.deleted entry.value)
  rw [CatalogSet.undo]
  simp only [CatalogEntry.ref, hfind, if_neg htop]
  rw [hunlink, List.nil_append, update_linkEntry_map, Function.update_eq_self]

theorem undo_started {entry : NewEntry N V} (hmap : set.map entry.name = []) :
    (((set.startChain entry.name).linkEntry tid entry.name entry.type entry.deleted
      entry.value).undo ⟨entry.name, set.nextAddress⟩).map = set.map := by
  have hstart : (set.startChain entry.name).map entry.name =
      [⟨set.nextAddress, entry.name, .invalid, true, none⟩] := by
    rw [startChain, linkEntry_map_self, hmap]
  rw [undo]
  simp only [linkEntry_map_self, hstart, findParent, if_true, unlinkEntry, Function.update_self]
  rw [update_linkEntry_map, Function.update_idem, startChain, update_linkEntry_map,
    Function.update_eq_self_iff, hmap]
  simp

theorem undo_congr (h : s.map = t.map) (ref : CatalogEntryRef N) :
    (s.undo ref).map = (t.undo ref).map := by
  rw [undo, undo, h]
  split
  · exact h
  · next parent entry _ =>
      simp only [unlinkEntry, h]
      split_ifs <;> rfl

theorem undo_foldl_congr (h : s.map = t.map) (refs : List (CatalogEntryRef N)) :
    (refs.foldl undo s).map = (refs.foldl undo t).map := by
  induction refs generalizing s t with
  | nil => exact h
  | cons ref refs ih => exact ih (undo_congr h ref)

/-- Undoing what was pushed, the newest first, restores the chains. -/
theorem Pushes.undone (h : Pushes tid start refs set) (hok : start.Ok) (hrooted : start.Rooted) :
    (refs.reverse.foldl undo set).map = start.map := by
  induction h with
  | refl => rfl
  | existing entry hpushes hmap ih =>
      obtain ⟨hokSet, hrootedSet⟩ := hpushes.ok hok hrooted
      have htop := (hrootedSet entry.name).1
      rw [hmap] at htop
      rw [List.reverse_append, List.reverse_singleton, List.singleton_append, List.foldl_cons,
        undo_foldl_congr (hokSet.undo_existing hmap (htop _ rfl)), ih]
  | started entry hpushes hmap ih =>
      rw [List.reverse_append, List.reverse_singleton, List.singleton_append, List.foldl_cons,
        undo_foldl_congr (undo_started hmap), ih]

/-! ## Commit and its revert -/

/-- The address of the entry on top of a pushed one. -/
def parentAddress (set : CatalogSet N V) (ref : CatalogEntryRef N) : Option Nat :=
  (findParent ref.address (set.map ref.name)).map fun x => x.1.address

omit [DecidableEq N] in
/-- An entry linked on top of a chain is not the parent of a deeper one. -/
theorem findParent_cons {address : Nat} {new parent entry : CatalogEntry N V}
    {chain : List (CatalogEntry N V)} (hnodup : (chain.map CatalogEntry.address).Nodup)
    (h : findParent address chain = some (parent, entry)) :
    findParent address (new :: chain) = some (parent, entry) := by
  cases chain with
  | nil => simp [findParent] at h
  | cons top rest =>
      have hne : top.address ≠ address := by
        intro htop
        cases rest with
        | nil => simp [findParent] at h
        | cons e rest =>
            -- the entry would be met twice
            have hrest : entry ∈ e :: rest := by
              rw [findParent] at h
              split_ifs at h with he
              · cases h
                exact List.mem_cons_self
              · exact (findParent_mem h).2.1
            have haddress := (findParent_mem h).2.2
            rw [List.map_cons, List.nodup_cons] at hnodup
            exact hnodup.1 (List.mem_map.mpr ⟨entry, hrest, by rw [haddress, htop]⟩)
      rw [findParent, if_neg hne]
      exact h

theorem Ok.parent_linkEntry (h : set.Ok) (timestamp : Nat) (name : N) (type : CatalogType)
    (deleted : Bool) (value : Option V) {ref : CatalogEntryRef N} {parent entry : CatalogEntry N V}
    (hfind : findParent ref.address (set.map ref.name) = some (parent, entry)) :
    findParent ref.address
        ((set.linkEntry timestamp name type deleted value).map ref.name) = some (parent, entry) ∧
      (set.linkEntry timestamp name type deleted value).timestamps parent.address =
        set.timestamps parent.address := by
  have hlt := h.fresh _ _ (findParent_mem hfind).1
  refine ⟨?_, Function.update_of_ne hlt.ne _ _⟩
  by_cases hname : ref.name = name
  · subst hname
    rw [linkEntry_map_self]
    exact findParent_cons (h.nodup _) hfind
  · rwa [linkEntry_map_of_ne _ _ _ _ _ hname]

/-- The entry on top of a pushed one belongs to the transaction. -/
def Stamped (set : CatalogSet N V) (tid : Nat) (ref : CatalogEntryRef N) : Prop :=
  ∃ parent entry, findParent ref.address (set.map ref.name) = some (parent, entry) ∧
    set.timestamps parent.address = tid

theorem Stamped.linkEntry {ref : CatalogEntryRef N} (h : set.Stamped tid ref) (hok : set.Ok)
    (timestamp : Nat) (name : N) (type : CatalogType) (deleted : Bool) (value : Option V) :
    (set.linkEntry timestamp name type deleted value).Stamped tid ref := by
  obtain ⟨parent, entry, hfind, hstamp⟩ := h
  obtain ⟨hfind', hstamp'⟩ := hok.parent_linkEntry timestamp name type deleted value hfind
  exact ⟨parent, entry, hfind', hstamp'.trans hstamp⟩

theorem stamped_top {top : CatalogEntry N V} {rest : List (CatalogEntry N V)} (entry : NewEntry N V)
    (hmap : set.map entry.name = top :: rest) :
    (set.linkEntry tid entry.name entry.type entry.deleted entry.value).Stamped tid
      ⟨entry.name, top.address⟩ := by
  refine ⟨⟨set.nextAddress, entry.name, entry.type, entry.deleted, entry.value⟩, top, ?_,
    Function.update_self _ _ _⟩
  rw [linkEntry_map_self, hmap, findParent, if_pos rfl]

theorem Pushes.stamped (h : Pushes tid start refs set) (hok : start.Ok) (hrooted : start.Rooted) :
    ∀ ref ∈ refs, set.Stamped tid ref := by
  induction h with
  | refl => simp
  | @existing refs set top rest entry hpushes hmap ih =>
      obtain ⟨hokSet, -⟩ := hpushes.ok hok hrooted
      intro ref href
      rcases List.mem_append.mp href with href | href
      · exact (ih ref href).linkEntry hokSet _ _ _ _ _
      · have hname : top.name = entry.name := hokSet.names _ _ (hmap ▸ List.mem_cons_self)
        rw [List.mem_singleton.mp href, CatalogEntry.ref, hname]
        exact stamped_top entry hmap
  | @started refs set entry hpushes hmap ih =>
      obtain ⟨hokSet, -⟩ := hpushes.ok hok hrooted
      intro ref href
      rcases List.mem_append.mp href with href | href
      · have hstarted := (ih ref href).linkEntry hokSet 0 entry.name .invalid true none
        exact hstarted.linkEntry (hokSet.linkEntry _ _ _ _ _) _ _ _ _ _
      · have hstart : (set.startChain entry.name).map entry.name =
            [⟨set.nextAddress, entry.name, .invalid, true, none⟩] := by
          rw [startChain, linkEntry_map_self, hmap]
        rw [List.mem_singleton.mp href]
        exact stamped_top entry hstart

theorem Pushes.older (h : Pushes tid start refs set) : start.nextAddress ≤ set.nextAddress ∧
      ∀ a < start.nextAddress, set.timestamps a = start.timestamps a := by
  induction h with
  | refl => exact ⟨Nat.le_refl _, fun _ _ => rfl⟩
  | existing entry _ _ ih =>
      refine ⟨Nat.le_succ_of_le ih.1, fun a ha => ?_⟩
      rw [linkEntry_timestamps_of_lt _ _ _ _ _ _ (Nat.lt_of_lt_of_le ha ih.1), ih.2 a ha]
  | @started refs set entry _ _ ih =>
      refine ⟨Nat.le_succ_of_le (Nat.le_succ_of_le ih.1), fun a ha => ?_⟩
      have hlt := Nat.lt_of_lt_of_le ha ih.1
      rw [linkEntry_timestamps_of_lt _ _ _ _ _ _ (Nat.lt_succ_of_lt hlt), startChain,
        linkEntry_timestamps_of_lt _ _ _ _ _ _ hlt, ih.2 a ha]

omit [DecidableEq N] in
theorem foldl_commitEntry (commitId : Nat) (refs : List (CatalogEntryRef N))
    (set : CatalogSet N V) :
    refs.foldl (fun s ref => s.commitEntry commitId ref) set =
      { set with
        timestamps := fun a =>
          if ∃ ref ∈ refs, parentAddress set ref = some a then commitId
          else set.timestamps a } := by
  induction refs generalizing set with
  | nil => simp
  | cons ref refs ih =>
      have hmap : (set.commitEntry commitId ref).map = set.map := by
        rw [commitEntry]
        split <;> rfl
      have hnext : (set.commitEntry commitId ref).nextAddress = set.nextAddress := by
        rw [commitEntry]
        split <;> rfl
      have hparents : parentAddress (set.commitEntry commitId ref) = parentAddress set := by
        funext r
        rw [parentAddress, parentAddress, hmap]
      have htimestamps : ∀ a, (set.commitEntry commitId ref).timestamps a =
          if parentAddress set ref = some a then commitId else set.timestamps a := by
        intro a
        rw [commitEntry, parentAddress]
        cases findParent ref.address (set.map ref.name) with
        | none => simp
        | some x => simp [updateTimestamp, Function.update_apply, eq_comm]
      rw [List.foldl_cons, ih, hmap, hnext, hparents]
      congr 1
      funext a
      rw [htimestamps]
      simp only [List.exists_mem_cons_iff]
      by_cases hrefs : ∃ r ∈ refs, parentAddress set r = some a
      · rw [if_pos hrefs, if_pos (Or.inr hrefs)]
      · rw [if_neg hrefs]
        simp only [hrefs, or_false]

/-- Pointers of one chain have one name, so the revert stamps the parent alone. -/
theorem Ok.revertEntry (h : set.Ok) (tid : Nat) (ref : CatalogEntryRef N) :
    set.revertEntry tid ref = set.commitEntry tid ref := by
  rw [CatalogSet.revertEntry, commitEntry]
  split
  · rfl
  · next parent entry hfind =>
      obtain ⟨hparent, hentry, -⟩ := findParent_mem hfind
      have hname : entry.name = parent.name := by
        rw [h.names _ _ hentry, h.names _ _ hparent]
      simp [hname]

omit [DecidableEq N] in
theorem Ok.commitEntry {set : CatalogSet N V} (h : set.Ok) (commitId : Nat)
    (ref : CatalogEntryRef N) : (set.commitEntry commitId ref).Ok := by
  rw [CatalogSet.commitEntry]
  split
  · exact h
  · exact ⟨h.names, h.fresh, h.nodup⟩

/-- Reverting a commit that got as far as `done` leaves the set as the transaction made it. -/
theorem Ok.revert_commit (h : set.Ok) (commitId : Nat) {done : List (CatalogEntryRef N)}
    (hdone : ∀ ref ∈ done, set.Stamped tid ref) :
    done.reverse.foldl (fun s ref => s.revertEntry tid ref)
      (done.foldl (fun s ref => s.commitEntry commitId ref) set) = set := by
  have hrevert : ∀ (refs : List (CatalogEntryRef N)) {s : CatalogSet N V}, s.Ok →
      refs.foldl (fun s ref => s.revertEntry tid ref) s =
        refs.foldl (fun s ref => s.commitEntry tid ref) s := by
    intro refs
    induction refs with
    | nil => exact fun _ => rfl
    | cons ref refs ih =>
        intro s hs
        rw [List.foldl_cons, List.foldl_cons, hs.revertEntry]
        exact ih (hs.commitEntry tid ref)
  have hokCommit : (done.foldl (fun s ref => s.commitEntry commitId ref) set).Ok := by
    rw [foldl_commitEntry]
    exact ⟨h.names, h.fresh, h.nodup⟩
  rw [hrevert _ hokCommit, foldl_commitEntry, foldl_commitEntry]
  have htimestamps : (fun a => if ∃ ref ∈ done.reverse, parentAddress set ref = some a then tid
      else if ∃ ref ∈ done, parentAddress set ref = some a then commitId
      else set.timestamps a) = set.timestamps := by
    funext a
    simp only [List.mem_reverse]
    split_ifs with hmem
    · obtain ⟨ref, href, hparent⟩ := hmem
      obtain ⟨parent, entry, hfind, hstamp⟩ := hdone ref href
      rw [parentAddress, hfind, Option.map_some, Option.some_inj] at hparent
      rw [← hparent, hstamp]
    · rfl
  exact congrArg (fun f => { set with timestamps := f }) htimestamps

theorem undo_timestamps (refs : List (CatalogEntryRef N)) (set : CatalogSet N V) :
    (refs.foldl undo set).timestamps = set.timestamps := by
  induction refs generalizing set with
  | nil => rfl
  | cons ref refs ih =>
      rw [List.foldl_cons, ih, undo]
      split
      · rfl
      · simp only [unlinkEntry]
        split_ifs <;> rfl

omit [DecidableEq N] in
theorem getEntryForTransaction_congr {s t : CatalogSet N V} (view : SnapshotView) :
    {chain : List (CatalogEntry N V)} →
    (∀ e ∈ chain, s.timestamps e.address = t.timestamps e.address) →
    s.getEntryForTransaction view chain = t.getEntryForTransaction view chain
  | [], _ => rfl
  | [_], _ => rfl
  | entry :: child :: rest, h => by
      rw [getEntryForTransaction, getEntryForTransaction, h entry (by simp),
        getEntryForTransaction_congr view fun e he => h e (List.mem_cons_of_mem _ he)]

theorem Ok.afterEvent [ToString N] (h : set.Ok) (hrooted : set.Rooted) (event : CatalogEvent N V) :
    (set.afterEvent event).Ok ∧ (set.afterEvent event).Rooted := by
  have hcommit : ∀ id ref, (set.commitEntry id ref).Rooted := by
    intro id ref
    rw [CatalogSet.commitEntry]
    split <;> exact hrooted
  cases event with
  | createCommitted entry =>
      rw [CatalogSet.afterEvent, createCommittedEntry]
      split
      · next hmap =>
          exact ⟨h.linkEntry _ _ _ _ _,
            .linkEntry _ entry (fun name _ => hrooted name) (hrooted entry.name).2⟩
      · exact ⟨h, hrooted⟩
  | change view op => exact (run_links view set op).ok h hrooted
  | commit id ref => exact ⟨h.commitEntry id ref, hcommit id ref⟩
  | revert tid ref =>
      rw [CatalogSet.afterEvent, h.revertEntry]
      exact ⟨h.commitEntry tid ref, hcommit tid ref⟩
  | undo ref => exact h.undo hrooted ref
  | cleanup ref => exact h.cleanupEntry hrooted ref

theorem ok_reachable [ToString N] (h : catalogLts.Reachable set) : set.Ok ∧ set.Rooted := by
  refine Lts.Reachable.invariant (I := fun s => s.Ok ∧ s.Rooted) (fun s hs => ?_)
    (fun s event t _ hinv hstep => ?_) h
  · refine ⟨⟨fun name e he => ?_, fun name e he => ?_, fun name => ?_⟩, fun name => ?_⟩
    · simp [hs name] at he
    · simp [hs name] at he
    · simp [hs name]
    · simp [hs name, RootedChain]
  · rw [show t = s.afterEvent event from hstep]
    exact hinv.1.afterEvent hinv.2 event

/-- A commit that failed, reverted and rolled back, leaves the chains as they were before the
first change, and every view finds the entries it found there. -/
theorem Pushes.failed_commit {tid : Nat} {start set : CatalogSet N V}
    {refs : List (CatalogEntryRef N)} (h : Pushes tid start refs set) (hok : start.Ok)
    (hrooted : start.Rooted) (commitId : Nat) {done : List (CatalogEntryRef N)}
    (hdone : ∀ ref ∈ done, ref ∈ refs) {final : CatalogSet N V}
    (hfinal : refs.reverse.foldl undo (done.reverse.foldl (fun s ref => s.revertEntry tid ref)
      (done.foldl (fun s ref => s.commitEntry commitId ref) set)) = final) :
    final.map = start.map ∧ ∀ view name, final.getEntry view name = start.getEntry view name := by
  have hstamped := h.stamped hok hrooted
  rw [(h.ok hok hrooted).1.revert_commit commitId fun ref href => hstamped ref (hdone ref href)]
    at hfinal
  have hmap : final.map = start.map := hfinal ▸ h.undone hok hrooted
  refine ⟨hmap, fun view name => ?_⟩
  have htimestamps : ∀ e ∈ start.map name,
      final.timestamps e.address = start.timestamps e.address := by
    intro e he
    rw [← hfinal, undo_timestamps, h.older.2 _ (hok.fresh name e he)]
  rw [getEntry, getEntry, hmap, getEntryForTransaction_congr view htimestamps]

end CatalogSet

end MiniDuck
