import Mathlib.Data.List.Nodup

/-!
# Insertion-ordered maps

A JavaScript `Map` (and a plain object used as a dictionary) iterates its keys in the order in which
they were first inserted. Setting a present key keeps its place; a deleted key that is set again
goes to the end.
-/

namespace WrongStack.Lib

/-- The entries of a map, oldest key first. No key occurs twice. -/
structure JsMap (κ β : Type*) where
  entries : List (κ × β)
  nodup : (entries.map Prod.fst).Nodup

namespace JsMap

variable {κ β : Type*} [DecidableEq κ]

instance [DecidableEq β] : DecidableEq (JsMap κ β) := fun m m' =>
  decidable_of_iff (m.entries = m'.entries) ⟨fun h => by cases m; cases m'; simpa using h, fun h => h ▸ rfl⟩

/-! ## Association lists -/

/-- The value of the first entry with the key `k`. -/
def lookupList (k : κ) : List (κ × β) → Option β
  | [] => none
  | (k', v) :: l => if k' = k then some v else lookupList k l

/-- Overwrite the entry of `k` in place, or append one. -/
def setList (k : κ) (v : β) : List (κ × β) → List (κ × β)
  | [] => [(k, v)]
  | (k', v') :: l => if k' = k then (k, v) :: l else (k', v') :: setList k v l

theorem setList_keys (k : κ) (v : β) (l : List (κ × β)) :
    (setList k v l).map Prod.fst =
      if k ∈ l.map Prod.fst then l.map Prod.fst else l.map Prod.fst ++ [k] := by
  induction l with
  | nil => simp [setList]
  | cons p l ih =>
      obtain ⟨k', v'⟩ := p
      by_cases h : k' = k
      · simp [setList, h]
      · have h' : ¬ k = k' := fun e => h e.symm
        by_cases hm : k ∈ l.map Prod.fst
        · simp only [setList, h, ↓reduceIte, List.map_cons, ih, hm, List.mem_cons, h', false_or]
        · simp only [setList, h, ↓reduceIte, List.map_cons, ih, hm, List.mem_cons, h', or_self,
            List.cons_append]

theorem lookupList_setList (k k' : κ) (v : β) (l : List (κ × β)) :
    lookupList k' (setList k v l) = if k = k' then some v else lookupList k' l := by
  induction l with
  | nil => simp [setList, lookupList]
  | cons p l ih =>
      obtain ⟨k₀, v₀⟩ := p
      by_cases h : k₀ = k
      · subst h
        by_cases h' : k₀ = k' <;> simp [setList, lookupList, h']
      · by_cases h' : k₀ = k'
        · subst h'
          have h'' : ¬ k = k₀ := fun e => h e.symm
          simp [setList, lookupList, h, h'']
        · simp [setList, lookupList, h, h', ih]

theorem lookupList_eq_some {k : κ} {v : β} {l : List (κ × β)} (hn : (l.map Prod.fst).Nodup) :
    lookupList k l = some v ↔ (k, v) ∈ l := by
  induction l with
  | nil => simp [lookupList]
  | cons p l ih =>
      obtain ⟨k', v'⟩ := p
      simp only [List.map_cons, List.nodup_cons] at hn
      by_cases h : k' = k
      · subst h
        have hnot : (k', v) ∉ l := fun hm => hn.1 (List.mem_map_of_mem (f := Prod.fst) hm)
        simp [lookupList, hnot, eq_comm]
      · have h' : ¬ k = k' := fun e => h e.symm
        simp [lookupList, h, h', ih hn.2]

theorem setList_new {k : κ} {v : β} {l : List (κ × β)} (h : lookupList k l = none) : setList k v l = l ++ [(k, v)] := by
  induction l with
  | nil => rfl
  | cons e l ih =>
      obtain ⟨k', w⟩ := e
      by_cases hk : k' = k
      · simp [lookupList, hk] at h
      · simp only [lookupList, hk, ↓reduceIte] at h
        simp only [setList, hk, ↓reduceIte, ih h, List.cons_append]

theorem lookupList_eq_none {k : κ} {l : List (κ × β)} :
    lookupList k l = none ↔ k ∉ l.map Prod.fst := by
  induction l with
  | nil => simp [lookupList]
  | cons p l ih =>
      obtain ⟨k', v'⟩ := p
      by_cases h : k' = k
      · simp [lookupList, h]
      · have h' : ¬ k = k' := fun e => h e.symm
        simp only [lookupList, h, ↓reduceIte, ih, List.map_cons, List.mem_cons, h', false_or]

/-! ## The operations -/

def empty : JsMap κ β := ⟨[], List.nodup_nil⟩

def get? (m : JsMap κ β) (k : κ) : Option β := lookupList k m.entries

def has (m : JsMap κ β) (k : κ) : Bool := (m.get? k).isSome

def set (m : JsMap κ β) (k : κ) (v : β) : JsMap κ β where
  entries := setList k v m.entries
  nodup := by
    rw [setList_keys]
    split
    · exact m.nodup
    · rename_i h
      exact List.nodup_append.mpr ⟨m.nodup, List.nodup_singleton k, by
        intro a ha b hb
        rw [List.mem_singleton] at hb
        subst hb
        exact fun e => h (e ▸ ha)⟩

def delete (m : JsMap κ β) (k : κ) : JsMap κ β where
  entries := m.entries.filter (fun p => decide (p.1 ≠ k))
  nodup := m.nodup.sublist (List.filter_sublist.map Prod.fst)

/-- Mutate the value object stored under `k`, when there is one. -/
def modify (m : JsMap κ β) (k : κ) (f : β → β) : JsMap κ β :=
  match m.get? k with
  | some v => m.set k (f v)
  | none => m

def keys (m : JsMap κ β) : List κ := m.entries.map Prod.fst

def size (m : JsMap κ β) : Nat := m.entries.length

/-! ## What a lookup sees -/

theorem mem_entries_iff {m : JsMap κ β} {k : κ} {v : β} : (k, v) ∈ m.entries ↔ m.get? k = some v :=
  (lookupList_eq_some m.nodup).symm

theorem mem_keys_iff {m : JsMap κ β} {k : κ} : k ∈ m.keys ↔ ∃ v, m.get? k = some v := by
  simp only [keys, List.mem_map, Prod.exists, exists_and_right, exists_eq_right, mem_entries_iff]

theorem has_iff {m : JsMap κ β} {k : κ} : m.has k = true ↔ ∃ v, m.get? k = some v := by
  simp [has, Option.isSome_iff_exists]

theorem has_eq_false {m : JsMap κ β} {k : κ} : m.has k = false ↔ m.get? k = none := by
  simp [has]

@[simp] theorem get?_empty (k : κ) : (empty : JsMap κ β).get? k = none := rfl

theorem get?_set (m : JsMap κ β) (k k' : κ) (v : β) :
    (m.set k v).get? k' = if k = k' then some v else m.get? k' :=
  lookupList_setList k k' v m.entries

theorem keys_set (m : JsMap κ β) (k : κ) (v : β) :
    (m.set k v).keys = if k ∈ m.keys then m.keys else m.keys ++ [k] := setList_keys k v m.entries

theorem keys_modify (m : JsMap κ β) (k : κ) (f : β → β) : (m.modify k f).keys = m.keys := by
  unfold modify
  split
  · rename_i v hv
    rw [keys_set, if_pos (mem_keys_iff.mpr ⟨v, hv⟩)]
  · rfl

@[simp] theorem get?_set_self (m : JsMap κ β) (k : κ) (v : β) : (m.set k v).get? k = some v := by
  simp [get?_set]

theorem get?_delete (m : JsMap κ β) (k k' : κ) :
    (m.delete k).get? k' = if k = k' then none else m.get? k' := by
  by_cases h : k = k'
  · subst h
    simp only [↓reduceIte]
    refine lookupList_eq_none.mpr ?_
    simp [delete]
  · have h' : ¬ k' = k := fun e => h e.symm
    simp only [h, ↓reduceIte]
    ext v
    rw [← mem_entries_iff, ← mem_entries_iff]
    simp [delete, h']

theorem get?_modify (m : JsMap κ β) (k k' : κ) (f : β → β) :
    (m.modify k f).get? k' = if k = k' then (m.get? k').map f else m.get? k' := by
  unfold modify
  split
  · rename_i v hv
    rw [get?_set]
    by_cases h : k = k'
    · subst h; simp [hv]
    · simp [h]
  · rename_i hv
    by_cases h : k = k'
    · subst h; simp [hv]
    · simp [h]

/-- Changing values in a way that `core` does not see. -/
theorem map_get?_foldl_modify {γ : Type*} {core : β → γ} {f : β → β} (hf : ∀ v, core (f v) = core v)
    (ks : List κ) (m : JsMap κ β) (k : κ) :
    ((ks.foldl (fun m k => m.modify k f) m).get? k).map core = (m.get? k).map core := by
  induction ks generalizing m with
  | nil => rfl
  | cons k' ks ih =>
      rw [List.foldl_cons, ih, get?_modify]
      split
      · rw [Option.map_map]
        exact congrArg (fun g => (m.get? k).map g) (funext hf)
      · rfl

theorem size_eq_zero {m : JsMap κ β} : m.size = 0 ↔ ∀ k, m.get? k = none := by
  constructor
  · intro h k
    have he : m.entries = [] := List.length_eq_zero_iff.mp h
    simp [get?, he, lookupList]
  · intro h
    refine List.length_eq_zero_iff.mpr (List.eq_nil_iff_forall_not_mem.mpr ?_)
    rintro ⟨k, v⟩ hm
    rw [mem_entries_iff, h k] at hm
    cases hm

/-! ## Counting entries -/

theorem countP_setList {p : κ × β → Bool} {k : κ} {v v' : β} {l : List (κ × β)}
    (h : lookupList k l = some v) :
    (setList k v' l).countP p + (if p (k, v) then 1 else 0) =
      l.countP p + if p (k, v') then 1 else 0 := by
  induction l with
  | nil => cases h
  | cons e l ih =>
      obtain ⟨k', w⟩ := e
      by_cases hk : k' = k
      · simp only [lookupList, hk, ↓reduceIte, Option.some.injEq] at h
        simp only [setList, hk, h, ↓reduceIte, List.countP_cons]
        omega
      · simp only [lookupList, hk, ↓reduceIte] at h
        simp only [setList, hk, ↓reduceIte, List.countP_cons]
        have := ih h
        omega

theorem countP_setList_new {p : κ × β → Bool} {k : κ} {v : β} {l : List (κ × β)}
    (h : lookupList k l = none) :
    (setList k v l).countP p = l.countP p + if p (k, v) then 1 else 0 := by
  induction l with
  | nil => simp [setList, List.countP_cons]
  | cons e l ih =>
      obtain ⟨k', w⟩ := e
      by_cases hk : k' = k
      · simp [lookupList, hk] at h
      · simp only [lookupList, hk, ↓reduceIte] at h
        simp only [setList, hk, ↓reduceIte, List.countP_cons, ih h]
        omega

/-- A new value for a key is counted in the place of the old one. -/
theorem countP_modify {m : JsMap κ β} {p : κ × β → Bool} {k : κ} {v : β} {f : β → β}
    (h : m.get? k = some v) :
    (m.modify k f).entries.countP p + (if p (k, v) then 1 else 0) =
      m.entries.countP p + if p (k, f v) then 1 else 0 := by
  unfold modify
  rw [h]
  exact countP_setList h

theorem countP_set_new {m : JsMap κ β} {p : κ × β → Bool} {k : κ} {v : β} (h : m.get? k = none) :
    (m.set k v).entries.countP p = m.entries.countP p + if p (k, v) then 1 else 0 :=
  countP_setList_new h

/-! ## Weighing entries -/

def weighList (f : β → Nat) : List (κ × β) → Nat
  | [] => 0
  | (_, v) :: l => f v + weighList f l

/-- The weights of all values together. -/
def weigh (f : β → Nat) (m : JsMap κ β) : Nat := weighList f m.entries

theorem weighList_setList {f : β → Nat} {k : κ} {v v' : β} {l : List (κ × β)}
    (h : lookupList k l = some v) : weighList f (setList k v' l) + f v = weighList f l + f v' := by
  induction l with
  | nil => cases h
  | cons e l ih =>
      obtain ⟨k', w⟩ := e
      by_cases hk : k' = k
      · obtain rfl : w = v := by simpa [lookupList, hk] using h
        simp only [setList, hk, ↓reduceIte, weighList]
        omega
      · simp only [lookupList, hk, ↓reduceIte] at h
        have := ih h
        simp only [setList, hk, ↓reduceIte, weighList]
        omega

theorem weigh_set {f : β → Nat} {m : JsMap κ β} {k : κ} {v v' : β} (h : m.get? k = some v) :
    (m.set k v').weigh f + f v = m.weigh f + f v' := weighList_setList h

theorem weigh_set_new {f : β → Nat} {m : JsMap κ β} {k : κ} {v : β} (h : m.get? k = none) :
    (m.set k v).weigh f = m.weigh f + f v := by
  have key : ∀ l : List (κ × β), lookupList k l = none →
      weighList f (setList k v l) = weighList f l + f v := by
    intro l
    induction l with
    | nil => simp [setList, weighList]
    | cons e l ih =>
        obtain ⟨k', w⟩ := e
        intro h
        by_cases hk : k' = k
        · simp [lookupList, hk] at h
        · simp only [lookupList, hk, ↓reduceIte] at h
          simp only [setList, hk, ↓reduceIte, weighList, ih h]
          omega
  exact key m.entries h

theorem weigh_delete {f : β → Nat} {m : JsMap κ β} {k : κ} {v : β} (h : m.get? k = some v) :
    (m.delete k).weigh f + f v = m.weigh f := by
  have key : ∀ l : List (κ × β), (l.map Prod.fst).Nodup → lookupList k l = some v →
      weighList f (l.filter fun p => decide (p.1 ≠ k)) + f v = weighList f l := by
    intro l
    induction l with
    | nil => exact fun _ h => by cases h
    | cons e l ih =>
        obtain ⟨k', w⟩ := e
        intro hn h
        obtain ⟨hnot, hn⟩ := List.nodup_cons.mp hn
        by_cases hk : k' = k
        · -- the key stands nowhere else
          obtain rfl : w = v := by simpa [lookupList, hk] using h
          have hrest : l.filter (fun p => decide (p.1 ≠ k)) = l := by
            refine List.filter_eq_self.mpr fun p hp => decide_eq_true fun heq => hnot ?_
            exact List.mem_map.mpr ⟨p, hp, heq.trans hk.symm⟩
          rw [List.filter_cons_of_neg (by simp [hk]), hrest, weighList, Nat.add_comm]
        · simp only [lookupList, hk, ↓reduceIte] at h
          rw [List.filter_cons_of_pos (by simp [hk]), weighList, weighList]
          have := ih hn h
          omega
  exact key m.entries m.nodup h

theorem size_set_new {m : JsMap κ β} {k : κ} {v : β} (h : m.get? k = none) :
    (m.set k v).size = m.size + 1 := by
  simpa [size, List.countP_true] using countP_set_new (p := fun _ => true) (v := v) h

/-! ## Changing every value -/

omit [DecidableEq κ] in
theorem eq_of_entries {m m' : JsMap κ β} (h : m.entries = m'.entries) : m = m' := by
  cases m
  cases m'
  cases h
  rfl

/-- Every value replaced by one that is made of it and its key. -/
def mapValues {γ : Type*} (m : JsMap κ β) (f : κ → β → γ) : JsMap κ γ where
  entries := m.entries.map fun e => (e.1, f e.1 e.2)
  nodup := by
    rw [List.map_map]
    exact m.nodup

section MapValues

variable {γ δ : Type*}

omit [DecidableEq κ] in
theorem mapValues_mapValues (m : JsMap κ β) (f : κ → β → γ) (f' : κ → γ → δ) :
    (m.mapValues f).mapValues f' = m.mapValues fun k v => f' k (f k v) :=
  eq_of_entries (by simp [mapValues])

theorem mapValues_congr {m : JsMap κ β} {f f' : κ → β → γ} (h : ∀ k v, m.get? k = some v → f k v = f' k v) :
    m.mapValues f = m.mapValues f' :=
  eq_of_entries (List.map_congr_left fun e he => by rw [h e.1 e.2 (mem_entries_iff.mp he)])

theorem get?_mapValues (m : JsMap κ β) (f : κ → β → γ) (k : κ) : (m.mapValues f).get? k = (m.get? k).map (f k) := by
  ext v
  rw [← mem_entries_iff, Option.map_eq_some_iff]
  simp only [mapValues, List.mem_map, Prod.exists, Prod.mk.injEq, ← mem_entries_iff]
  constructor
  · rintro ⟨k', w, hw, rfl, rfl⟩
    exact ⟨w, hw, rfl⟩
  · rintro ⟨w, hw, rfl⟩
    exact ⟨k, w, hw, rfl, rfl⟩

end MapValues

theorem setList_eq_map {k : κ} {v w : β} {l : List (κ × β)} (hn : (l.map Prod.fst).Nodup) (h : lookupList k l = some v) :
    setList k w l = l.map fun e => (e.1, if k = e.1 then w else e.2) := by
  induction l with
  | nil => cases h
  | cons e l ih =>
      obtain ⟨k', v'⟩ := e
      obtain ⟨hnot, hn⟩ := List.nodup_cons.mp hn
      by_cases hk : k' = k
      · -- the key stands nowhere else
        have hrest : l.map (fun e => (e.1, if k = e.1 then w else e.2)) = l := by
          refine (List.map_congr_left fun e he => ?_).trans (List.map_id l)
          have hne : k ≠ e.1 := fun heq => hnot (List.mem_map.mpr ⟨e, he, (hk.trans heq).symm⟩)
          rw [if_neg hne]
          rfl
        simp only [setList, hk, ↓reduceIte, List.map_cons, hrest]
      · simp only [lookupList, hk, ↓reduceIte] at h
        simp only [setList, hk, ↓reduceIte, List.map_cons, ih hn h, Ne.symm hk]

theorem modify_eq_mapValues (m : JsMap κ β) (k : κ) (f : β → β) :
    m.modify k f = m.mapValues fun k' v => if k = k' then f v else v := by
  refine eq_of_entries ?_
  unfold modify
  cases h : m.get? k with
  | some v =>
      refine (setList_eq_map m.nodup h).trans (List.map_congr_left fun e he => ?_)
      have hvalue := mem_entries_iff.mp he
      by_cases hk : k = e.1
      · rw [← hk, h] at hvalue
        simp [hk, Option.some.inj hvalue]
      · simp [hk]
  | none =>
      refine ((List.map_congr_left fun e he => ?_).trans (List.map_id _)).symm
      have hne : k ≠ e.1 := by
        rintro rfl
        rw [mem_entries_iff.mp he] at h
        cases h
      simp [hne]

/-- A map is its entries, set one after the other. -/
theorem foldl_set_entries (m : JsMap κ β) : m.entries.foldl (fun m e => m.set e.1 e.2) empty = m := by
  have key : ∀ (l : List (κ × β)) (m : JsMap κ β), (m.entries ++ l).map Prod.fst |>.Nodup →
      (l.foldl (fun m e => m.set e.1 e.2) m).entries = m.entries ++ l := by
    intro l
    induction l with
    | nil => exact fun m _ => (List.append_nil _).symm
    | cons e l ih =>
        intro m hn
        have hnew : m.get? e.1 = none := by
          refine lookupList_eq_none.mpr fun hmem => ?_
          rw [List.map_append, List.map_cons] at hn
          exact (List.nodup_append.mp hn).2.2 e.1 hmem e.1 List.mem_cons_self rfl
        have hset : (m.set e.1 e.2).entries = m.entries ++ [e] := setList_new hnew
        rw [List.foldl_cons, ih _ (by rw [hset]; simpa using hn), hset]
        simp
  exact eq_of_entries (key m.entries empty m.nodup)

end JsMap

end WrongStack.Lib
