import Mathlib.Data.List.Basic
import Mathlib.Data.List.Induction
import StackLang.Proofs.Core.Layout

/-!
# Which function holds an address

The named labels of an assembled program are its functions and its entry, in the order in which they
stand. So the name that is nearest before an address of a function is that of the function.

Results:
* `Module.functions_of_assemble`: the named addresses of an assembled program.
* `Module.functionNameAt?_function`, `Module.functionNameAt?_entry`: what holds an address.
-/
namespace StackLang

/-! ## Tables that are filled in order -/

theorem insertEntry_of_lt {α : Type} {key : Nat} (value : α) {entries : List (Nat × α)}
    (h : ∀ e ∈ entries, e.1 < key) : insertEntry key value entries = entries ++ [(key, value)] := by
  induction entries with
  | nil => rfl
  | cons e rest ih =>
    obtain ⟨k, v⟩ := e
    have hk : k < key := h (k, v) List.mem_cons_self
    rw [insertEntry, if_neg (by omega), if_neg (by omega),
      ih fun e he => h e (List.mem_cons_of_mem _ he)]
    rfl

theorem lookupEntry_eq_some_iff {α : Type} {key : Nat} {value : α} {entries : List (Nat × α)}
    (h : entries.Pairwise (·.1 < ·.1)) :
    lookupEntry key entries = some value ↔ (key, value) ∈ entries := by
  induction entries with
  | nil => simp [lookupEntry]
  | cons e rest ih =>
    obtain ⟨k, v⟩ := e
    obtain ⟨hk, hrest⟩ := List.pairwise_cons.1 h
    rw [lookupEntry]
    split
    · rename_i heq
      subst heq
      refine ⟨fun hv => by simp_all, fun hmem => ?_⟩
      rcases List.mem_cons.1 hmem with hmem | hmem
      · cases hmem
        rfl
      · exact absurd (hk _ hmem) (Nat.lt_irrefl _)
    · rename_i hne
      rw [ih hrest, List.mem_cons]
      simp [hne]

/-- What a table holds under a number is what it lists. -/
theorem Table.get?_eq_some_iff {α : Type} {t : Table α} {key : Nat} {value : α} :
    t.get? key = some value ↔ (key, value) ∈ t.entries := lookupEntry_eq_some_iff t.rising

theorem Table.ext {α : Type} {s t : Table α} (h : s.entries = t.entries) : s = t := by
  cases s
  cases t
  cases h
  rfl

/-! ## The nearest of some addresses -/

namespace Program

variable {address : Nat}

theorem nearest?_concat (l : List (Nat × String)) (x : Nat × String) :
    nearest? address (l ++ [x]) =
      if x.1 ≤ address ∧ (∀ b, nearest? address l = some b → b.1 ≤ x.1) then some x
      else nearest? address l := by
  unfold nearest?
  rw [List.foldl_append]
  rfl

theorem mem_of_nearest? {l : List (Nat × String)} {x : Nat × String}
    (h : nearest? address l = some x) : x ∈ l := by
  induction l using List.reverseRecOn with
  | nil => cases h
  | append_singleton l y ih =>
    rw [nearest?_concat] at h
    split at h
    · cases h
      exact List.mem_append_right l (List.mem_singleton_self _)
    · exact List.mem_append_left _ (ih h)

/-- Where names are listed in the order of their addresses, the nearest one is the last of those that
are no later than the given address. -/
theorem nearest?_append {l later : List (Nat × String)} {x : Nat × String}
    (hl : ∀ y ∈ l, y.1 ≤ x.1) (hx : x.1 ≤ address) (hlater : ∀ y ∈ later, address < y.1) :
    nearest? address (l ++ x :: later) = some x := by
  induction later using List.reverseRecOn with
  | nil =>
    rw [nearest?_concat, if_pos ⟨hx, fun b hb => hl b (mem_of_nearest? hb)⟩]
  | append_singleton later y ih =>
    have hy : address < y.1 := hlater y (List.mem_append_right _ (List.mem_singleton_self y))
    rw [← List.cons_append, ← List.append_assoc, nearest?_concat,
      if_neg fun h => Nat.not_lt.2 h.1 hy]
    exact ih fun z hz => hlater z (List.mem_append_left _ hz)

theorem nearest?_of_getElem? {l : List (Nat × String)} {k : Nat} {x : Nat × String}
    (hk : l[k]? = some x) (hx : x.1 ≤ address)
    (hbefore : ∀ j y, j < k → l[j]? = some y → y.1 ≤ x.1)
    (hafter : ∀ j y, k < j → l[j]? = some y → address < y.1) : nearest? address l = some x := by
  obtain ⟨hlt, rfl⟩ := List.getElem?_eq_some_iff.1 hk
  have hsplit : l.take k ++ l[k] :: l.drop (k + 1) = l := by
    rw [← List.drop_eq_getElem_cons hlt, List.take_append_drop]
  have hnearest : nearest? address (l.take k ++ l[k] :: l.drop (k + 1)) = some l[k] := by
    refine nearest?_append (fun y hy => ?_) hx fun y hy => ?_
    · obtain ⟨j, hj⟩ := List.getElem?_of_mem hy
      rw [List.getElem?_take] at hj
      split at hj
      · rename_i hlt'
        exact hbefore j y hlt' hj
      · cases hj
    · obtain ⟨j, hj⟩ := List.getElem?_of_mem hy
      rw [List.getElem?_drop] at hj
      exact hafter (k + 1 + j) y (by omega) hj
  rwa [hsplit] at hnearest

end Program

namespace Core.Module

variable {m : Module} {index : Nat} {f : Function}

/-- The functions of a program and its entry, each with its address and its name. -/
def sections (m : Module) : List (Nat × String) :=
  m.functions.zipIdx.map (fun x => (m.start x.2, x.1.name)) ++ [(m.entryStart, "<entry>")]

theorem entries_foldl_insert (fs : List Function) (n : Nat) {t : Table String}
    (h : ∀ e ∈ t.entries, e.1 < n) :
    ((fs.zipIdx n).foldl (fun names x => names.insert x.2 x.1.name) t).entries =
      t.entries ++ (fs.zipIdx n).map fun x => (x.2, x.1.name) := by
  induction fs generalizing n t with
  | nil => simp
  | cons f fs ih =>
    have hinsert : (t.insert n f.name).entries = t.entries ++ [(n, f.name)] :=
      insertEntry_of_lt f.name h
    rw [List.zipIdx_cons, List.foldl_cons, List.map_cons, ih (n + 1), hinsert, List.append_assoc]
    · rfl
    · intro e he
      rw [hinsert] at he
      rcases List.mem_append.1 he with he | he
      · exact Nat.lt_succ_of_lt (h e he)
      · rw [List.mem_singleton.1 he]; exact Nat.lt_succ_self n

theorem entries_names (m : Module) : m.names.entries =
    m.functions.zipIdx.map (fun x => (x.2, x.1.name)) ++ [(m.entry.id, "<entry>")] := by
  have hfunctions := entries_foldl_insert m.functions 0 (t := .empty) (fun e he => by cases he)
  have hlast : ∀ e ∈ m.functions.zipIdx.map (fun x => (x.2, x.1.name)), e.1 < m.entry.id := by
    rintro e he
    obtain ⟨x, hx, rfl⟩ := List.mem_map.1 he
    have := m.length_le_entry
    have := List.snd_lt_of_mem_zipIdx hx
    simp only
    omega
  show insertEntry m.entry.id "<entry>" _ = _
  refine (congrArg _ hfunctions).trans (insertEntry_of_lt _ hlast)

/-- A function is named after its label. -/
theorem names_function {index : Nat} {f : Function} (hf : m.functions[index]? = some f) :
    m.names.get? index = some f.name := by
  rw [Table.get?_eq_some_iff, entries_names]
  exact List.mem_append_left _ (List.mem_map.2 ⟨(f, index), List.mem_zipIdx_iff_getElem?.2 hf, rfl⟩)

theorem names_entry (m : Module) : m.names.get? m.entry.id = some "<entry>" := by
  rw [Table.get?_eq_some_iff, entries_names]
  exact List.mem_append_right _ List.mem_cons_self

/-- The named addresses of an assembled program. -/
theorem functions_of_assemble {p : Program} (h : m.assemble = .ok p) : p.functions = m.sections := by
  obtain ⟨rfl, hid⟩ := assemble_eq_ok h
  have hentry : (link m.emit).get? m.entry.id = some m.entryStart := resolve?_entry hid
  have hfunction {x : Function × Nat} (hx : x ∈ m.functions.zipIdx) :
      (link m.emit).get? x.2 = some (m.start x.2) := by
    have hlow := m.length_le_entry
    have hlt : x.2 < m.functions.length := by simpa using List.snd_lt_of_mem_zipIdx hx
    have := target?_function hid (List.getElem?_eq_getElem hlt)
    rwa [Label.ofOperand?_operand (by simp only; omega)] at this
  rw [Program.functions, sections, entries_names, List.filterMap_append, List.filterMap_map]
  congr 1
  · rw [← List.filterMap_eq_map]
    refine List.filterMap_congr fun x hx => ?_
    simp [hfunction hx]
  · simp [hentry]

theorem getElem?_sections_function (hf : m.functions[index]? = some f) :
    m.sections[index]? = some (m.start index, f.name) := by
  rw [sections, List.getElem?_append_left (by simpa using lt_of_getElem? hf)]
  simp [hf]

theorem getElem?_sections_entry (m : Module) :
    m.sections[m.functions.length]? = some (m.entryStart, "<entry>") := by
  simp [sections]

theorem start_of_getElem?_sections {x : Nat × String} (hx : m.sections[index]? = some x) :
    index ≤ m.functions.length ∧ x.1 = m.start index := by
  have hlt := (List.getElem?_eq_some_iff.1 hx).1
  simp only [sections, List.length_append, List.length_map, List.length_zipIdx,
    List.length_singleton] at hlt
  refine ⟨by omega, ?_⟩
  rcases Nat.lt_succ_iff_lt_or_eq.1 hlt with hlt | rfl
  · rw [getElem?_sections_function (List.getElem?_eq_getElem hlt)] at hx
    cases hx
    rfl
  · rw [getElem?_sections_entry] at hx
    cases hx
    rfl

/-- The function, or the entry, whose addresses begin before an address and end after it. -/
theorem nearest?_sections {x : Nat × String} (hx : m.sections[index]? = some x) {address : Nat}
    (hlow : m.start index ≤ address)
    (hhigh : ∀ j, index < j → j ≤ m.functions.length → address < m.start j) :
    Program.nearest? address m.sections = some x := by
  obtain ⟨hindex, hstart⟩ := start_of_getElem?_sections hx
  refine Program.nearest?_of_getElem? hx (hstart ▸ hlow) (fun j y hj hy => ?_) fun j y hj hy => ?_
  · rw [(start_of_getElem?_sections hy).2, hstart]
    exact start_le_start (Nat.le_of_lt hj) hindex
  · rw [(start_of_getElem?_sections hy).2]
    exact hhigh j hj (start_of_getElem?_sections hy).1

/-- The name at an address of a function is that of the function. -/
theorem functionNameAt?_function {p : Program} (h : m.assemble = .ok p)
    (hf : m.functions[index]? = some f) {j : Nat} (hj : j < (m.functionCode index f).length) :
    p.functionNameAt? (m.start index + j) = some f.name := by
  have hnearest : Program.nearest? (m.start index + j) m.sections = some (m.start index, f.name) :=
    nearest?_sections (getElem?_sections_function hf) (Nat.le_add_right _ _) fun k hk hle => by
      have := start_add_length_le hf hk hle
      omega
  rw [Program.functionNameAt?, functions_of_assemble h, hnearest]
  rfl

/-- The name at an address of the entry, or after it. -/
theorem functionNameAt?_entry {p : Program} (h : m.assemble = .ok p) (j : Nat) :
    p.functionNameAt? (m.entryStart + j) = some "<entry>" := by
  have hnearest : Program.nearest? (m.entryStart + j) m.sections = some (m.entryStart, "<entry>") :=
    nearest?_sections m.getElem?_sections_entry (Nat.le_add_right _ _)
      fun k hk hle => absurd hk (Nat.not_lt.2 hle)
  rw [Program.functionNameAt?, functions_of_assemble h, hnearest]
  rfl

end Core.Module
end StackLang
