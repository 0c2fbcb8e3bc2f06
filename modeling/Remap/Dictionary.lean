/-!
Sorted entries.  `Entries` holds pairs in ascending key order, so that looking up and inserting stop
at the first greater key; `Dictionary` is a list of entries together with the proof that they are
sorted.  Keys compare by code point, which is the order of their UTF-8 bytes.
-/

namespace Remap

universe u v

variable {α : Type u} {β : Type v}

/-- Pairs of a key and a value, meant to be in ascending key order. -/
abbrev Entries (α : Type u) := List (String × α)

namespace Entries

/-- Each key comes before all later ones, so no key occurs twice. -/
def Sorted (entries : Entries α) : Prop :=
  entries.Pairwise (·.1 < ·.1)

def find? (key : String) : Entries α → Option α
  | [] => none
  | (k, v) :: rest =>
      if key < k then none
      else if key = k then some v
      else find? key rest

/-- Add an entry, or replace the value of its key. -/
def insert (key : String) (value : α) : Entries α → Entries α
  | [] => [(key, value)]
  | (k, v) :: rest =>
      if key < k then (key, value) :: (k, v) :: rest
      else if key = k then (key, value) :: rest
      else (k, v) :: insert key value rest

def erase (key : String) : Entries α → Entries α
  | [] => []
  | (k, v) :: rest =>
      if key < k then (k, v) :: rest
      else if key = k then rest
      else (k, v) :: erase key rest

/-- Entries in any order, a later one replacing an earlier one of its key. -/
def ofList (pairs : List (String × α)) : Entries α :=
  pairs.foldl (fun entries pair => insert pair.1 pair.2 entries) []

@[simp]
theorem find?_insert_self (key : String) (value : α) (entries : Entries α) :
    find? key (insert key value entries) = some value := by
  induction entries with
  | nil => simp [insert, find?]
  | cons head rest ih =>
      obtain ⟨k, v⟩ := head
      by_cases hlt : key < k
      · simp [insert, find?, hlt]
      · by_cases heq : key = k
        · simp [insert, find?, heq]
        · simp [insert, find?, hlt, heq, ih]

theorem find?_insert_of_ne {key other : String} (hne : other ≠ key) (value : α)
    (entries : Entries α) : find? other (insert key value entries) = find? other entries := by
  induction entries with
  | nil => simp [insert, find?, hne]
  | cons head rest ih =>
      obtain ⟨k, v⟩ := head
      by_cases hlt : key < k
      · by_cases hother : other < key
        · simp [insert, find?, hlt, hother, String.lt_trans hother hlt]
        · simp [insert, find?, hlt, hother, hne]
      · by_cases heq : key = k
        · subst heq
          simp [insert, find?, hne]
        · simp [insert, find?, hlt, heq, ih]

@[simp]
theorem insert_insert_self (key : String) (value later : α) (entries : Entries α) :
    insert key later (insert key value entries) = insert key later entries := by
  induction entries with
  | nil => simp [insert]
  | cons head rest ih =>
      obtain ⟨k, v⟩ := head
      by_cases hlt : key < k
      · simp [insert, hlt]
      · by_cases heq : key = k
        · simp [insert, heq]
        · simp [insert, hlt, heq, ih]

/-- An entry that is there already is not added. -/
theorem insert_of_find? {key : String} {value : α} {entries : Entries α}
    (h : find? key entries = some value) : insert key value entries = entries := by
  induction entries with
  | nil => cases h
  | cons head rest ih =>
      obtain ⟨k, v⟩ := head
      rw [find?] at h
      split at h
      · cases h
      · rename_i hlt
        split at h
        · rename_i heq
          cases h
          rw [insert, if_neg hlt, if_pos heq, heq]
        · rename_i hne
          rw [insert, if_neg hlt, if_neg hne, ih h]

theorem insert_comm_of_lt {key other : String} (hlt : key < other) (value later : α)
    (entries : Entries α) :
    insert other later (insert key value entries) =
      insert key value (insert other later entries) := by
  have hnot : ¬ other < key := fun h => String.lt_irrefl _ (String.lt_trans hlt h)
  have hne : other ≠ key := fun h => String.lt_irrefl key (h ▸ hlt)
  induction entries with
  | nil => simp [insert, hlt, hnot, hne]
  | cons head rest ih =>
      obtain ⟨k, v⟩ := head
      by_cases hkey : key < k
      · have hfirst : insert key value ((k, v) :: rest) = (key, value) :: (k, v) :: rest := by
          simp [insert, hkey]
        rw [hfirst, insert, if_neg hnot, if_neg hne, insert]
        by_cases hother : other < k
        · simp [insert, hother, hlt]
        · by_cases heq : other = k
          · simp [insert, heq, hkey]
          · simp [insert, hother, heq, hkey]
      · have hother : ¬ other < k := fun h => hkey (String.lt_trans hlt h)
        by_cases heq : key = k
        · subst heq
          simp [insert, hne, hnot]
        · have hgreater : other ≠ k := fun h => hkey (h ▸ hlt)
          simp [insert, hkey, heq, hother, hgreater, ih]

/-- Entries of different keys can be added in either order. -/
theorem insert_comm {key other : String} (hne : key ≠ other) (value later : α)
    (entries : Entries α) :
    insert other later (insert key value entries) =
      insert key value (insert other later entries) := by
  by_cases hlt : key < other
  · exact insert_comm_of_lt hlt value later entries
  · have hle : other ≤ key := String.not_lt.mp hlt
    have hgt : other < key := String.not_le.mp fun h => hne (String.le_antisymm h hle)
    exact (insert_comm_of_lt hgt later value entries).symm

theorem mem_insert {key : String} {value : α} {entries : Entries α} {pair : String × α}
    (h : pair ∈ insert key value entries) : pair = (key, value) ∨ pair ∈ entries := by
  induction entries with
  | nil => simpa [insert] using h
  | cons head rest ih =>
      obtain ⟨k, v⟩ := head
      by_cases hlt : key < k
      · simpa [insert, hlt] using h
      · by_cases heq : key = k
        · rw [insert, if_neg hlt, if_pos heq, List.mem_cons] at h
          exact h.imp_right (List.mem_cons_of_mem _)
        · rw [insert, if_neg hlt, if_neg heq, List.mem_cons] at h
          rcases h with h | h
          · exact .inr (by simp [h])
          · exact (ih h).imp_right (List.mem_cons_of_mem _)

theorem mem_of_mem_erase {key : String} {entries : Entries α} {pair : String × α}
    (h : pair ∈ erase key entries) : pair ∈ entries := by
  induction entries with
  | nil => simp [erase] at h
  | cons head rest ih =>
      obtain ⟨k, v⟩ := head
      by_cases hlt : key < k
      · simpa [erase, hlt] using h
      · by_cases heq : key = k
        · rw [erase, if_neg hlt, if_pos heq] at h
          exact List.mem_cons_of_mem _ h
        · rw [erase, if_neg hlt, if_neg heq, List.mem_cons] at h
          rcases h with h | h
          · simp [h]
          · exact List.mem_cons_of_mem _ (ih h)

theorem Sorted.insert {entries : Entries α} (h : Sorted entries) (key : String) (value : α) :
    Sorted (insert key value entries) := by
  induction entries with
  | nil => simp [Entries.insert, Sorted]
  | cons head rest ih =>
      obtain ⟨k, v⟩ := head
      have hrest : Sorted rest := (List.pairwise_cons.mp h).2
      have hhead : ∀ pair ∈ rest, k < pair.1 := (List.pairwise_cons.mp h).1
      by_cases hlt : key < k
      · simp only [Entries.insert, hlt, ↓reduceIte]
        refine List.pairwise_cons.mpr ⟨fun pair hpair => ?_, h⟩
        rcases List.mem_cons.mp hpair with hpair | hpair
        · simpa [hpair] using hlt
        · exact String.lt_trans hlt (hhead pair hpair)
      · by_cases heq : key = k
        · rw [Entries.insert, if_neg hlt, if_pos heq]
          exact List.pairwise_cons.mpr ⟨fun pair hpair => heq ▸ hhead pair hpair, hrest⟩
        · simp only [Entries.insert, hlt, heq, ↓reduceIte]
          refine List.pairwise_cons.mpr ⟨fun pair hpair => ?_, ih hrest⟩
          rcases mem_insert hpair with hpair | hpair
          · subst hpair
            have hle : k ≤ key := String.not_lt.mp hlt
            exact String.not_le.mp fun hge => heq (String.le_antisymm hge hle)
          · exact hhead pair hpair

theorem Sorted.erase {entries : Entries α} (h : Sorted entries) (key : String) :
    Sorted (erase key entries) := by
  induction entries with
  | nil => exact h
  | cons head rest ih =>
      obtain ⟨k, v⟩ := head
      have hrest : Sorted rest := (List.pairwise_cons.mp h).2
      have hhead : ∀ pair ∈ rest, k < pair.1 := (List.pairwise_cons.mp h).1
      by_cases hlt : key < k
      · simpa [Entries.erase, hlt] using h
      · by_cases heq : key = k
        · simpa [Entries.erase, heq, String.lt_irrefl] using hrest
        · simp only [Entries.erase, hlt, heq, ↓reduceIte]
          exact List.pairwise_cons.mpr
            ⟨fun pair hpair => hhead pair (mem_of_mem_erase hpair), ih hrest⟩

theorem Sorted.map {entries : Entries α} (h : Sorted entries) (f : α → β) :
    Sorted (entries.map fun pair => (pair.1, f pair.2)) :=
  List.pairwise_map.mpr h

end Entries

/-- A finite map from strings, listed in key order. -/
@[ext]
structure Dictionary (α : Type u) where
  entries : Entries α
  sorted : entries.Sorted

namespace Dictionary

def empty : Dictionary α :=
  ⟨[], .nil⟩

instance : Inhabited (Dictionary α) :=
  ⟨empty⟩

instance [DecidableEq α] : DecidableEq (Dictionary α) := fun first second =>
  decidable_of_iff (first.entries = second.entries) Dictionary.ext_iff.symm

def get? (dictionary : Dictionary α) (key : String) : Option α :=
  Entries.find? key dictionary.entries

def insert (dictionary : Dictionary α) (key : String) (value : α) : Dictionary α :=
  ⟨Entries.insert key value dictionary.entries, dictionary.sorted.insert key value⟩

def erase (dictionary : Dictionary α) (key : String) : Dictionary α :=
  ⟨Entries.erase key dictionary.entries, dictionary.sorted.erase key⟩

/-- Of two pairs with one key the later one counts. -/
def ofList (pairs : List (String × α)) : Dictionary α :=
  pairs.foldl (fun dictionary pair => dictionary.insert pair.1 pair.2) empty

def map (f : α → β) (dictionary : Dictionary α) : Dictionary β :=
  ⟨dictionary.entries.map fun pair => (pair.1, f pair.2), dictionary.sorted.map f⟩

def keys (dictionary : Dictionary α) : List String :=
  dictionary.entries.map (·.1)

def size (dictionary : Dictionary α) : Nat :=
  dictionary.entries.length

def isEmpty (dictionary : Dictionary α) : Bool :=
  dictionary.entries.isEmpty

@[simp]
theorem get?_insert_self (dictionary : Dictionary α) (key : String) (value : α) :
    (dictionary.insert key value).get? key = some value :=
  Entries.find?_insert_self key value dictionary.entries

theorem get?_insert_of_ne (dictionary : Dictionary α) {key other : String} (hne : other ≠ key)
    (value : α) : (dictionary.insert key value).get? other = dictionary.get? other :=
  Entries.find?_insert_of_ne hne value dictionary.entries

@[simp]
theorem get?_empty (key : String) : (empty : Dictionary α).get? key = none := rfl

theorem keys_insert (dictionary : Dictionary α) (key other : String) (value : α) :
    other ∈ (dictionary.insert key value).keys ↔ other = key ∨ other ∈ dictionary.keys := by
  obtain ⟨entries, sorted⟩ := dictionary
  simp only [keys, insert]
  clear sorted
  induction entries with
  | nil => simp [Entries.insert]
  | cons head rest ih =>
      obtain ⟨k, v⟩ := head
      rw [Entries.insert]
      split
      · simp
      · split
        · rename_i heq
          simp [heq]
        · rw [List.map_cons, List.mem_cons, ih, List.map_cons, List.mem_cons]
          exact or_left_comm

theorem mem_keys_ofList {pairs : List (String × α)} {key : String} :
    key ∈ (ofList pairs).keys ↔ key ∈ pairs.map (·.1) := by
  have hfold (dictionary : Dictionary α) :
      key ∈ (pairs.foldl (fun dictionary pair => dictionary.insert pair.1 pair.2) dictionary).keys ↔
        key ∈ pairs.map (·.1) ∨ key ∈ dictionary.keys := by
    induction pairs generalizing dictionary with
    | nil => simp
    | cons pair rest ih =>
        rw [List.foldl_cons, ih, keys_insert, List.map_cons, List.mem_cons, or_assoc]
        exact or_left_comm
  rw [ofList, hfold]
  exact or_iff_left List.not_mem_nil

theorem get?_foldl_insert {pairs : List (String × α)} (h : (pairs.map (·.1)).Nodup)
    (dictionary : Dictionary α) (key : String) (value : α) :
    (pairs.foldl (fun dictionary pair => dictionary.insert pair.1 pair.2) dictionary).get? key =
        some value ↔
      (key, value) ∈ pairs ∨ (key ∉ pairs.map (·.1) ∧ dictionary.get? key = some value) := by
  induction pairs generalizing dictionary with
  | nil => simp
  | cons pair rest ih =>
      obtain ⟨first, head⟩ := pair
      rw [List.map_cons, List.nodup_cons] at h
      rw [List.foldl_cons, ih h.2, List.map_cons, List.mem_cons, List.mem_cons]
      by_cases hkey : key = first
      · subst hkey
        have hfresh : (key, value) ∉ rest := fun hmem => h.1 (List.mem_map.mpr ⟨_, hmem, rfl⟩)
        have hkeys : key ∉ rest.map (·.1) := h.1
        rw [get?_insert_self]
        simp [hfresh, hkeys, eq_comm]
      · have hpair : (key, value) ≠ (first, head) := fun heq => hkey (congrArg Prod.fst heq)
        simp [hkey, get?_insert_of_ne]

/-- If no key occurs twice, the table holds the pairs and nothing else. -/
theorem get?_ofList {pairs : List (String × α)} (h : (pairs.map (·.1)).Nodup) (key : String)
    (value : α) : (ofList pairs).get? key = some value ↔ (key, value) ∈ pairs := by
  rw [ofList, get?_foldl_insert h]
  simp

/-- Whatever the keys, the table holds nothing but the pairs. -/
theorem mem_of_get?_ofList {pairs : List (String × α)} {key : String} {value : α}
    (h : (ofList pairs).get? key = some value) : (key, value) ∈ pairs := by
  have hfold (dictionary : Dictionary α)
      (hvalue : (pairs.foldl (fun dictionary pair => dictionary.insert pair.1 pair.2)
        dictionary).get? key = some value) :
      (key, value) ∈ pairs ∨ dictionary.get? key = some value := by
    clear h
    induction pairs generalizing dictionary with
    | nil => exact .inr hvalue
    | cons pair rest ih =>
        rcases ih _ hvalue with hrest | hinsert
        · exact .inl (List.mem_cons_of_mem pair hrest)
        · by_cases hkey : key = pair.1
          · rw [hkey, get?_insert_self] at hinsert
            cases hinsert
            exact .inl (hkey ▸ List.mem_cons_self)
          · rw [get?_insert_of_ne _ hkey] at hinsert
            exact .inr hinsert
  exact (hfold empty h).resolve_right nofun

/-- Pairs whose keys all differ make the union of two tables. -/
theorem get?_ofList_append {first second : List (String × α)}
    (h : ((first ++ second).map (·.1)).Nodup) (key : String) :
    (ofList (first ++ second)).get? key = ((ofList first).get? key).or ((ofList second).get? key) := by
  have hparts := h
  rw [List.map_append, List.nodup_append] at hparts
  obtain ⟨hfirst, hsecond, hdisjoint⟩ := hparts
  refine Option.ext fun value => ?_
  rw [get?_ofList h, List.mem_append, Option.or_eq_some_iff, get?_ofList hfirst,
    get?_ofList hsecond]
  refine or_congr_right ⟨fun hmem => ⟨?_, hmem⟩, And.right⟩
  refine Option.eq_none_iff_forall_ne_some.mpr fun other hother => ?_
  rw [get?_ofList hfirst] at hother
  exact hdisjoint key (List.mem_map_of_mem hother) key (List.mem_map_of_mem hmem) rfl

end Dictionary

end Remap
