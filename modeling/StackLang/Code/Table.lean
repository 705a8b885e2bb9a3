/-!
# Tables by number

A table maps some numbers to values and lists them in rising order.

* `get?_insert`: a table holds what was last put under a number, and all else stays.
-/
namespace StackLang

variable {α : Type}

/-- Puts a value under a key of a list in rising order, in place of what was there. -/
def insertEntry (key : Nat) (value : α) : List (Nat × α) → List (Nat × α)
  | [] => [(key, value)]
  | (k, v) :: rest =>
    if key < k then (key, value) :: (k, v) :: rest
    else if key = k then (key, value) :: rest
    else (k, v) :: insertEntry key value rest

/-- The value under a key of a list. -/
def lookupEntry (key : Nat) : List (Nat × α) → Option α
  | [] => none
  | (k, v) :: rest => if key = k then some v else lookupEntry key rest

theorem lookupEntry_insertEntry (key : Nat) (value : α) (k : Nat) (entries : List (Nat × α)) :
    lookupEntry k (insertEntry key value entries) =
      if k = key then some value else lookupEntry k entries := by
  induction entries with
  | nil => rfl
  | cons a rest ih =>
    obtain ⟨j, v⟩ := a
    simp only [insertEntry]
    split
    · rfl
    · split
      · rename_i h; subst h; by_cases h : k = key <;> simp [lookupEntry, h]
      · rename_i hne
        simp only [lookupEntry, ih]
        by_cases h : k = j
        · have : k ≠ key := fun e => hne (e ▸ h)
          simp only [if_pos h, if_neg this]
        · simp [h]

theorem mem_insertEntry {key : Nat} {value : α} {e : Nat × α} {entries : List (Nat × α)}
    (h : e ∈ insertEntry key value entries) : e = (key, value) ∨ e ∈ entries := by
  induction entries with
  | nil => simpa [insertEntry] using h
  | cons a rest ih =>
    obtain ⟨k, v⟩ := a
    simp only [insertEntry] at h
    split at h
    · simpa using h
    · split at h
      · rcases List.mem_cons.1 h with h | h
        · exact .inl h
        · exact .inr (List.mem_cons_of_mem _ h)
      · rcases List.mem_cons.1 h with h | h
        · exact .inr (h ▸ List.mem_cons_self)
        · exact (ih h).imp_right (List.mem_cons_of_mem _)

theorem insertEntry_rising (key : Nat) (value : α) {entries : List (Nat × α)}
    (h : entries.Pairwise (·.1 < ·.1)) : (insertEntry key value entries).Pairwise (·.1 < ·.1) := by
  induction entries with
  | nil => simp [insertEntry]
  | cons a rest ih =>
    obtain ⟨k, v⟩ := a
    obtain ⟨hk, hr⟩ := List.pairwise_cons.1 h
    simp only [insertEntry]
    split
    · rename_i hlt
      refine List.pairwise_cons.2 ⟨fun e he => ?_, h⟩
      rcases List.mem_cons.1 he with rfl | he
      · exact hlt
      · exact Nat.lt_trans hlt (hk e he)
    · split
      · rename_i heq
        exact List.pairwise_cons.2 ⟨fun e he => heq ▸ hk e he, hr⟩
      · rename_i hlt hne
        refine List.pairwise_cons.2 ⟨fun e he => ?_, ih hr⟩
        rcases mem_insertEntry he with rfl | he
        · simp only; omega
        · exact hk e he

/-- Values under numbers, in rising order of the numbers. -/
structure Table (α : Type) where
  entries : List (Nat × α)
  rising : entries.Pairwise (·.1 < ·.1)

namespace Table

instance [DecidableEq α] : DecidableEq (Table α)
  | ⟨a, _⟩, ⟨b, _⟩ => if h : a = b then isTrue (by cases h; rfl) else isFalse (by simpa using h)

instance [Repr α] : Repr (Table α) := ⟨fun t => reprPrec t.entries⟩

/-- The table that holds nothing. -/
def empty : Table α := ⟨[], .nil⟩

instance : Inhabited (Table α) := ⟨empty⟩

/-- Puts a value under a number, in place of what was there. -/
def insert (t : Table α) (key : Nat) (value : α) : Table α :=
  ⟨insertEntry key value t.entries, insertEntry_rising key value t.rising⟩

/-- The value under a number. -/
def get? (t : Table α) (key : Nat) : Option α := lookupEntry key t.entries

@[simp] theorem get?_empty (key : Nat) : (empty : Table α).get? key = none := rfl

theorem get?_insert (t : Table α) (key : Nat) (value : α) (k : Nat) :
    (t.insert key value).get? k = if k = key then some value else t.get? k :=
  lookupEntry_insertEntry key value k t.entries

end Table
end StackLang
