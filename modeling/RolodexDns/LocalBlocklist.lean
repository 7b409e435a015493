import Mathlib.Data.List.Nodup
import RolodexDns.StoredRecords

/-! The operator's own blocklist: its table, the set of names it is looked up in, and how a database of a build
that kept the list under another name is opened. -/
namespace RolodexDns.LocalBlocklist
open StoredRecords List

structure BlocklistEntry where
  name : Text
  reason : Text
deriving DecidableEq

structure BlocklistTable where
  rows : List BlocklistEntry
  unique : (rows.map BlocklistEntry.name).Nodup

namespace BlocklistTable

variable (table : BlocklistTable) (entry : BlocklistEntry)

def names : List Text := table.rows.map BlocklistEntry.name

def empty : BlocklistTable := ⟨[],nodup_nil⟩

/-- DELETE FROM the table WHERE name is the given one. -/
def delete (name : Text) : BlocklistTable where
  rows := table.rows.filter (·.name≠name)
  unique := table.unique.sublist (filter_sublist.map _)

variable {name other : Text}

theorem mem_delete {table : BlocklistTable} {e : BlocklistEntry} :
    e∈(table.delete name).rows ↔ e∈table.rows ∧ e.name≠name := by
  simp [delete]

def insertOrReplace : BlocklistTable where
  rows := (table.delete entry.name).rows++[entry]
  unique := nodup_map_concat (table.delete entry.name).unique fun _ he => (mem_delete.mp he).2

theorem mem_names_delete {table : BlocklistTable} :
    other∈(table.delete name).names ↔ other∈table.names ∧ other≠name := by
  simp only [names,mem_map,mem_delete]
  grind

theorem mem_names_insertOrReplace {table : BlocklistTable} {entry : BlocklistEntry} :
    other∈(table.insertOrReplace entry).names ↔ other∈table.names ∨ other=entry.name := by
  have hr : other∈(table.delete entry.name).names ↔ other∈table.names ∧ other≠entry.name := mem_names_delete
  unfold names at hr
  rw [names,insertOrReplace,map_append,mem_append,hr,map_singleton,mem_singleton]
  by_cases heq : other=entry.name
  · simp [heq]
  · simp [heq,names]

def insertOrIgnore : BlocklistTable :=
  if h : ∀ e∈table.rows,e.name≠entry.name then ⟨table.rows++[entry],nodup_map_concat table.unique h⟩ else table

/-- INSERT OR IGNORE INTO the table SELECT name, reason FROM the rows given. -/
def insertOrIgnoreSelect (rows : List BlocklistEntry) : BlocklistTable := rows.foldl insertOrIgnore table

theorem insertOrIgnoreSelect_eq {table : BlocklistTable} {rows : List BlocklistEntry}
    (h : ∀ e∈rows,e.name∈table.names) :
    table.insertOrIgnoreSelect rows=table := by
  induction rows with
  | nil => rfl
  | cons e rows ih =>
    have ht : table.insertOrIgnore e=table := by
      obtain ⟨e',he',hn⟩ := mem_map.mp (h e mem_cons_self)
      exact dif_neg fun hne => hne e' he' hn
    rw [insertOrIgnoreSelect,foldl_cons,ht]
    exact ih fun e' he' => h e' (mem_cons_of_mem _ he')

end BlocklistTable

/-- The tables of a database file that have to do with blocking, as far as they are there. -/
structure BlocklistFile where
  localBlocklistEntries : Option BlocklistTable
  /-- The name of the list before. -/
  localRblEntries : Option (List BlocklistEntry)
  /-- The providers of a scope, which nothing reads any more. -/
  scopeRblProviders : Option (List (List Text))

namespace BlocklistFile

variable (file : BlocklistFile)

def current : List BlocklistEntry := (file.localBlocklistEntries.getD .empty).rows

def retired : List BlocklistEntry := file.localRblEntries.getD []

def createTables : BlocklistFile :=
  { file with localBlocklistEntries := some (file.localBlocklistEntries.getD .empty) }

/-- The rows are selected from the list that they are inserted into. -/
def migrateRetiredRblTables : BlocklistFile :=
  let moved :=
    if file.localRblEntries.isSome then
      { file with
        localBlocklistEntries := file.localBlocklistEntries.map fun table => table.insertOrIgnoreSelect table.rows
        localRblEntries := none }
    else file
  { moved with scopeRblProviders := none }

def initTables : BlocklistFile := file.createTables.migrateRetiredRblTables

/-- Opening leaves the current list as it is, and nothing of the old tables. -/
theorem initTables_eq : file.initTables=⟨some (file.localBlocklistEntries.getD .empty),none,none⟩ := by
  have hs (table : BlocklistTable) : table.insertOrIgnoreSelect table.rows=table :=
    BlocklistTable.insertOrIgnoreSelect_eq fun e he => mem_map_of_mem he
  obtain ⟨current,retired,providers⟩ := file
  cases retired with
  | none => rfl
  | some rows => simp [initTables,createTables,migrateRetiredRblTables,hs]

/-- The old list is carried over: what it had is in the current one, where a name has the reason it had there
before if it was there before; nothing else is added; and opening again changes nothing. -/
structure Preserved (file : BlocklistFile) : Prop where
  carried : ∀ e∈file.retired,e∈file.initTables.current ∨ ∃ e'∈file.current,e'.name=e.name
  kept : ∀ e∈file.current,e∈file.initTables.current
  nothingElse : ∀ e∈file.initTables.current,e∈file.current ∨ e∈file.retired ∧ ∀ e'∈file.current,e'.name≠e.name
  again : file.initTables.initTables=file.initTables

/-- A file is opened with its old list preserved exactly if every name of the old list is in the current one already. -/
theorem blocklist_preserved_iff : file.Preserved ↔ ∀ e∈file.retired,∃ e'∈file.current,e'.name=e.name := by
  have hc : file.initTables.current=file.current := by
    rw [initTables_eq]
    rfl
  constructor
  · intro h e he
    rcases h.carried e he with hmem | hn
    · rw [hc] at hmem
      exact ⟨e,hmem,rfl⟩
    · exact hn
  · intro h
    refine ⟨fun e he => .inr (h e he),?_,?_,?_⟩
    · rw [hc]
      exact fun e he => he
    · rw [hc]
      exact fun e he => .inl he
    · rw [initTables_eq,initTables_eq]
      rfl

/-- An entry of the old list is lost. -/
theorem retired_entry_lost : ¬ (⟨none,some [⟨"ads.example","ads"⟩],none⟩ : BlocklistFile).Preserved := by
  intro h
  rcases h.carried ⟨"ads.example","ads"⟩ mem_cons_self with hmem | ⟨e,he,-⟩
  · cases hmem
  · cases he

end BlocklistFile

structure LocalList where
  table : BlocklistTable
  cache : List Text
  cached : ∀ name,name∈cache ↔ name∈table.names

namespace LocalList

def load (file : BlocklistFile) : LocalList where
  table := file.initTables.localBlocklistEntries.getD .empty
  cache := (file.initTables.localBlocklistEntries.getD .empty).names
  cached _ := Iff.rfl

variable (list : LocalList) (name : Text)

def addLocalBlocklistEntry (name reason : Text) : LocalList where
  table := list.table.insertOrReplace ⟨name,reason⟩
  cache := if name∈list.cache then list.cache else name::list.cache
  cached other := by
    rw [BlocklistTable.mem_names_insertOrReplace,← list.cached other]
    split_ifs with hmem
    · constructor
      · exact .inl
      · rintro (h | rfl)
        · exact h
        · exact hmem
    · rw [mem_cons,or_comm]

def removeLocalBlocklistEntry : Bool × LocalList :=
  (name∈list.table.names,
    { table := list.table.delete name
      cache := if name∈list.table.names then list.cache.filter (· ≠ name) else list.cache
      cached := fun other => by
        rw [BlocklistTable.mem_names_delete,← list.cached other]
        split_ifs with hnot
        · simp
        · rw [← list.cached name] at hnot
          exact ⟨fun h => ⟨h,fun heq => hnot (heq ▸ h)⟩,And.left⟩ })

def lookupLocalBlocklist : Bool := name∈list.cache

variable (list : LocalList)

@[simp] theorem lookup_add (name reason other : Text) :
    (list.addLocalBlocklistEntry name reason).lookupLocalBlocklist other=true ↔
      list.lookupLocalBlocklist other=true ∨ other=name := by
  unfold lookupLocalBlocklist addLocalBlocklistEntry
  grind

@[simp] theorem lookup_remove (name other : Text) :
    (list.removeLocalBlocklistEntry name).2.lookupLocalBlocklist other=true ↔
      list.lookupLocalBlocklist other=true ∧ other≠name := by
  have hc := list.cached name
  unfold lookupLocalBlocklist removeLocalBlocklistEntry
  grind

end LocalList

end RolodexDns.LocalBlocklist
