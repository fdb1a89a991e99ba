import Mathlib

/-!
# Mangled names of dependencies

The key of a dependency is the mangled names of its two entries, and the
mangled name of an entry is its type, the schemas that contain it, its
name and for a trigger its table, all joined by NUL bytes. One mangled
name tells its entry (`mangledEntryName_inj`). Two joined ones tell where
the second begins only by the name of its type: they are told apart if no
name below an outermost schema is that of a type
(`mangledDependencyName_inj`).
-/

namespace MiniDuck

namespace Dependencies

/-- `Identifier`: its bytes in upper case, in which identifiers are compared. -/
abbrev Identifier := List UInt8

inductive CatalogType where
  | invalid | tableEntry | schemaEntry | viewEntry | indexEntry | preparedStatement
  | sequenceEntry | collationEntry | typeEntry | databaseEntry | coordinateSystemEntry
  | triggerEntry
  | tableFunctionEntry | scalarFunctionEntry | aggregateFunctionEntry | pragmaFunctionEntry
  | copyFunctionEntry | macroEntry | tableMacroEntry | windowFunctionEntry
  | deletedEntry | renamedEntry
  | secretEntry | secretTypeEntry | secretFunctionEntry
  | dependencyEntry
  deriving DecidableEq

def catalogTypeToString : CatalogType → String
  | .collationEntry => "Collation"
  | .coordinateSystemEntry => "Coordinate System"
  | .typeEntry => "Type"
  | .tableEntry => "Table"
  | .schemaEntry => "Schema"
  | .databaseEntry => "Database"
  | .tableFunctionEntry => "Table Function"
  | .scalarFunctionEntry => "Scalar Function"
  | .aggregateFunctionEntry => "Aggregate Function"
  | .windowFunctionEntry => "Window Function"
  | .copyFunctionEntry => "Copy Function"
  | .pragmaFunctionEntry => "Pragma Function"
  | .macroEntry => "Macro Function"
  | .tableMacroEntry => "Table Macro Function"
  | .viewEntry => "View"
  | .indexEntry => "Index"
  | .preparedStatement => "Prepared Statement"
  | .sequenceEntry => "Sequence"
  | .triggerEntry => "Trigger"
  | .secretEntry => "Secret"
  | .secretTypeEntry => "Secret Type"
  | .secretFunctionEntry => "Secret Function"
  | .invalid | .deletedEntry | .renamedEntry | .dependencyEntry => "INVALID"

/-- The types of entries that have a name of their own. -/
def CatalogType.isProper : CatalogType → Bool
  | .invalid | .deletedEntry | .renamedEntry | .dependencyEntry => false
  | _ => true

def identifier (text : String) : Identifier :=
  text.toList.map fun c => UInt8.ofNat c.toUpper.toNat

def typeIdentifier (type : CatalogType) : Identifier := identifier (catalogTypeToString type)

/-- `CatalogEntryInfo`; the table is empty unless the entry is a trigger. -/
structure CatalogEntryInfo where
  type : CatalogType
  schemaPath : List Identifier
  name : Identifier
  table : Identifier
  deriving DecidableEq

def nul : UInt8 := 0

def mangledEntryName (info : CatalogEntryInfo) : Identifier :=
  typeIdentifier info.type ++ [nul] ++ info.schemaPath.flatMap (fun schema => schema ++ [nul]) ++
    info.name ++ if info.table = [] then [] else nul :: info.table

def mangledDependencyName (source target : Identifier) : Identifier := source ++ nul :: target

/-! ## Components -/

def components (info : CatalogEntryInfo) : List Identifier :=
  typeIdentifier info.type :: (info.schemaPath ++ info.name ::
    if info.table = [] then [] else [info.table])

/-- Identifiers have no NUL bytes, and exactly the triggers have a table. -/
structure CatalogEntryInfo.WellFormed (info : CatalogEntryInfo) : Prop where
  type : info.type.isProper = true
  nul : ∀ name ∈ info.schemaPath ++ [info.name, info.table], Dependencies.nul ∉ name
  table : info.table ≠ [] ↔ info.type = .triggerEntry

def IsTypeName (name : Identifier) : Prop := ∃ type, name = typeIdentifier type

/-- No name of the entry but its outermost one is the name of a catalog type. -/
def CatalogEntryInfo.Plain (info : CatalogEntryInfo) : Prop :=
  ∀ name ∈ (components info).drop 2, ¬IsTypeName name

theorem nul_notMem_typeIdentifier (type : CatalogType) : nul ∉ typeIdentifier type := by
  cases type <;> decide

def typeOfIdentifier (name : Identifier) : Option CatalogType :=
  [.tableEntry, .schemaEntry, .viewEntry, .indexEntry, .preparedStatement, .sequenceEntry,
    .collationEntry, .typeEntry, .databaseEntry, .coordinateSystemEntry, .triggerEntry,
    .tableFunctionEntry, .scalarFunctionEntry, .aggregateFunctionEntry, .pragmaFunctionEntry,
    .copyFunctionEntry, .macroEntry, .tableMacroEntry, .windowFunctionEntry, .secretEntry,
    .secretTypeEntry, .secretFunctionEntry].find? (typeIdentifier · = name)

theorem typeOfIdentifier_typeIdentifier {type : CatalogType} (h : type.isProper = true) :
    typeOfIdentifier (typeIdentifier type) = some type := by
  revert h
  cases type <;> decide

theorem typeIdentifier_inj {type type' : CatalogType} (h : type.isProper = true)
    (h' : type'.isProper = true) (heq : typeIdentifier type = typeIdentifier type') :
    type = type' := by
  have hsome := typeOfIdentifier_typeIdentifier h
  rw [heq, typeOfIdentifier_typeIdentifier h'] at hsome
  exact (Option.some.inj hsome).symm

theorem intercalate_cons_cons (x : UInt8) (a b : Identifier) (l : List Identifier) :
    [x].intercalate (a :: b :: l) = a ++ x :: [x].intercalate (b :: l) := by
  simp [List.intercalate]

theorem intercalate_append {x : UInt8} {l l' : List Identifier}
    (hl : l ≠ []) (hl' : l' ≠ []) :
    [x].intercalate (l ++ l') = [x].intercalate l ++ x :: [x].intercalate l' := by
  induction l with
  | nil => exact absurd rfl hl
  | cons a l ih =>
      cases l with
      | nil =>
          cases l' with
          | nil => exact absurd rfl hl'
          | cons b l' =>
              rw [List.singleton_append, intercalate_cons_cons]
              simp [List.intercalate]
      | cons b l =>
          rw [List.cons_append, List.cons_append, intercalate_cons_cons, ← List.cons_append,
            ih (List.cons_ne_nil b l), intercalate_cons_cons, List.append_assoc, List.cons_append]

theorem mangledEntryName_eq (info : CatalogEntryInfo) :
    mangledEntryName info = [nul].intercalate (components info) := by
  have hpath : ∀ (path : List Identifier) (rest : List Identifier), rest ≠ [] →
      [nul].intercalate (path ++ rest) =
        path.flatMap (fun schema => schema ++ [nul]) ++ [nul].intercalate rest := by
    intro path rest hrest
    induction path with
    | nil => rfl
    | cons schema path ih =>
        obtain ⟨a, l, hl⟩ := List.exists_cons_of_ne_nil
          (List.append_ne_nil_of_right_ne_nil path hrest)
        rw [List.cons_append, hl, intercalate_cons_cons, ← hl, ih, List.flatMap_cons]
        simp
  obtain ⟨a, l, hl⟩ := List.exists_cons_of_ne_nil
    (List.append_ne_nil_of_right_ne_nil info.schemaPath
      (List.cons_ne_nil info.name (if info.table = [] then [] else [info.table])))
  rw [mangledEntryName, components, hl, intercalate_cons_cons, ← hl,
    hpath _ _ (List.cons_ne_nil _ _)]
  split
  · simp [List.intercalate]
  · rw [intercalate_cons_cons]
    simp [List.intercalate]

theorem components_ne_nil (info : CatalogEntryInfo) : components info ≠ [] :=
  List.cons_ne_nil _ _

theorem mangledDependencyName_eq (source target : CatalogEntryInfo) :
    mangledDependencyName (mangledEntryName source) (mangledEntryName target) =
      [nul].intercalate (components source ++ components target) := by
  rw [intercalate_append (components_ne_nil source) (components_ne_nil target),
    mangledDependencyName, mangledEntryName_eq, mangledEntryName_eq]

variable {info : CatalogEntryInfo}

theorem CatalogEntryInfo.WellFormed.nul_notMem (h : info.WellFormed) :
    ∀ c ∈ components info, Dependencies.nul ∉ c := by
  intro c hc
  rw [components, List.mem_cons, List.mem_append, List.mem_cons] at hc
  obtain rfl | hc | rfl | hc := hc
  · exact nul_notMem_typeIdentifier info.type
  · exact h.nul c (List.mem_append_left _ hc)
  · exact h.nul _ (List.mem_append_right _ List.mem_cons_self)
  · refine h.nul c (List.mem_append_right _ (List.mem_cons_of_mem _ ?_))
    split at hc
    · exact absurd hc List.not_mem_nil
    · exact hc

/-- Names without NUL bytes are told by their joined form. -/
theorem intercalate_inj {l l' : List Identifier} (hl : l ≠ []) (hl' : l' ≠ [])
    (hnul : ∀ c ∈ l, nul ∉ c) (hnul' : ∀ c ∈ l', nul ∉ c)
    (h : [nul].intercalate l = [nul].intercalate l') : l = l' := by
  rw [← List.splitOn_intercalate nul hnul hl, h, List.splitOn_intercalate nul hnul' hl']

theorem components_inj {info' : CatalogEntryInfo} (h : info.WellFormed) (h' : info'.WellFormed)
    (heq : components info = components info') : info = info' := by
  rw [components, components] at heq
  obtain ⟨htype, hrest⟩ := List.cons.inj heq
  obtain ⟨type, path, name, table⟩ := info
  obtain ⟨type', path', name', table'⟩ := info'
  obtain rfl : type = type' := typeIdentifier_inj h.type h'.type htype
  have htable := h.table
  have htable' := h'.table
  dsimp only at htable htable' hrest
  by_cases htrigger : type = .triggerEntry
  · rw [if_neg (htable.mpr htrigger), if_neg (htable'.mpr htrigger)] at hrest
    obtain ⟨hpath, hlast⟩ := List.append_inj' hrest rfl
    simp only [List.cons.injEq, and_true] at hlast
    rw [hpath, hlast.1, hlast.2]
  · obtain rfl : table = [] := not_not.mp fun hne => htrigger (htable.mp hne)
    obtain rfl : table' = [] := not_not.mp fun hne => htrigger (htable'.mp hne)
    rw [if_pos rfl] at hrest
    obtain ⟨hpath, hlast⟩ := List.append_inj' hrest rfl
    rw [hpath, List.singleton_inj.mp hlast]

theorem mangledEntryName_inj {info' : CatalogEntryInfo} (h : info.WellFormed)
    (h' : info'.WellFormed) (heq : mangledEntryName info = mangledEntryName info') :
    info = info' := by
  rw [mangledEntryName_eq, mangledEntryName_eq] at heq
  exact components_inj h h' (intercalate_inj (components_ne_nil _) (components_ne_nil _)
    h.nul_notMem h'.nul_notMem heq)

/-! ## Pairs -/

/-- A mangled name has at least the type and one more part. -/
theorem components_split (info : CatalogEntryInfo) :
    ∃ type first rest, components info = type :: first :: rest := by
  obtain ⟨first, rest, hrest⟩ := List.exists_cons_of_ne_nil
    (List.append_ne_nil_of_right_ne_nil info.schemaPath
      (List.cons_ne_nil info.name (if info.table = [] then [] else [info.table])))
  exact ⟨typeIdentifier info.type, first, rest, by rw [components, hrest]⟩

/-- Two lists that each go on with the first type name. -/
theorem append_inj_of_typeName {xs xs' ys ys' : List Identifier} {c c' : Identifier}
    (hxs : ∀ x ∈ xs, ¬IsTypeName x) (hxs' : ∀ x ∈ xs', ¬IsTypeName x) (hc : IsTypeName c)
    (hc' : IsTypeName c') (h : xs ++ c :: ys = xs' ++ c' :: ys') :
    xs = xs' ∧ c :: ys = c' :: ys' := by
  induction xs generalizing xs' with
  | nil =>
      cases xs' with
      | nil => exact ⟨rfl, h⟩
      | cons x' xs' =>
          obtain ⟨rfl, -⟩ := List.cons.inj h
          exact absurd hc (hxs' _ List.mem_cons_self)
  | cons x xs ih =>
      cases xs' with
      | nil =>
          obtain ⟨rfl, -⟩ := List.cons.inj h
          exact absurd hc' (hxs _ List.mem_cons_self)
      | cons x' xs' =>
          obtain ⟨rfl, htail⟩ := List.cons.inj h
          obtain ⟨rfl, hrest⟩ := ih (fun y hy => hxs y (List.mem_cons_of_mem _ hy))
            (fun y hy => hxs' y (List.mem_cons_of_mem _ hy)) htail
          exact ⟨rfl, hrest⟩

/-- A pair of entries without names of catalog types is told by its mangled name. -/
theorem mangledDependencyName_inj {source target source' target' : CatalogEntryInfo}
    (hsource : source.WellFormed ∧ source.Plain) (htarget : target.WellFormed ∧ target.Plain)
    (hsource' : source'.WellFormed ∧ source'.Plain) (htarget' : target'.WellFormed ∧ target'.Plain)
    (heq : mangledDependencyName (mangledEntryName source) (mangledEntryName target) =
      mangledDependencyName (mangledEntryName source') (mangledEntryName target')) :
    source = source' ∧ target = target' := by
  rw [mangledDependencyName_eq, mangledDependencyName_eq] at heq
  have hnul : ∀ {a b : CatalogEntryInfo}, a.WellFormed → b.WellFormed →
      ∀ c ∈ components a ++ components b, nul ∉ c := by
    intro a b ha hb c hc
    obtain hc | hc := List.mem_append.mp hc
    · exact ha.nul_notMem c hc
    · exact hb.nul_notMem c hc
  have hne : ∀ a b : CatalogEntryInfo, components a ++ components b ≠ [] := fun a b =>
    List.append_ne_nil_of_left_ne_nil (components_ne_nil a) _
  have hlists := intercalate_inj (hne source target) (hne source' target')
    (hnul hsource.1 htarget.1) (hnul hsource'.1 htarget'.1) heq
  obtain ⟨type, first, rest, hsplit⟩ := components_split source
  obtain ⟨type', first', rest', hsplit'⟩ := components_split source'
  have hrest := hsource.2
  have hrest' := hsource'.2
  rw [CatalogEntryInfo.Plain, hsplit, List.drop_succ_cons, List.drop_succ_cons,
    List.drop_zero] at hrest
  rw [CatalogEntryInfo.Plain, hsplit', List.drop_succ_cons, List.drop_succ_cons,
    List.drop_zero] at hrest'
  rw [hsplit, hsplit'] at hlists
  simp only [List.cons_append, List.cons.injEq] at hlists
  obtain ⟨htype, hfirst, htails⟩ := hlists
  obtain ⟨hrests, htargets⟩ := append_inj_of_typeName hrest hrest' ⟨target.type, rfl⟩
    ⟨target'.type, rfl⟩ htails
  refine ⟨components_inj hsource.1 hsource'.1 ?_, components_inj htarget.1 htarget'.1 htargets⟩
  rw [hsplit, hsplit', htype, hfirst, hrests]

end Dependencies

end MiniDuck
