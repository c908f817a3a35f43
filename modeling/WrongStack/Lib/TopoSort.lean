import Mathlib.Data.List.Perm.Subperm
import WrongStack.Lib.Graph

/-!
# Topological sorting by depth

A walk marks what is on its path (`visiting`) and what it is done with (`visited`), and lists a vertex once
its edges have been followed. An edge can be broken. The order exists just when no edge is broken and there is
no cycle, and then every vertex stands behind all that its edges lead to.
-/

namespace WrongStack.Lib

variable {α κ ε : Type*}

/-- Vertices that are known by a key, their edges in the order in which they are followed, and what a walk
that comes back to its own path ends with. -/
structure Sorting (α κ ε : Type*) where
  key : α → κ
  edges : α → List (Except ε α)
  cycle : List κ → ε

structure Marks (α κ : Type*) where
  visited : List κ := []
  visiting : List κ := []
  order : List α := []

namespace Sorting

section Walk

variable [DecidableEq κ] (g : Sorting α κ ε)

/-- Follow one edge; `none` is a walk that is out of fuel. -/
def follow (go : α → Marks α κ → Except (Option ε) (Marks α κ)) (m : Marks α κ) :
    Except ε α → Except (Option ε) (Marks α κ)
  | .error e => .error (some e)
  | .ok d => go d m

def visit : Nat → List κ → α → Marks α κ → Except (Option ε) (Marks α κ)
  | 0, _, _, _ => .error none
  | fuel + 1, stack, p, m =>
      if g.key p ∈ m.visited then .ok m
      else if g.key p ∈ m.visiting then .error (some (g.cycle (stack ++ [g.key p])))
      else
        ((g.edges p).foldlM (follow (visit fuel (stack ++ [g.key p])))
            { m with visiting := g.key p :: m.visiting }).map fun m =>
          { visited := g.key p :: m.visited
            visiting := m.visiting.erase (g.key p)
            order := m.order ++ [p] }

/-- Visit every vertex, with fuel for a path through all of them. -/
def sort (nodes : List α) : Except (Option ε) (List α) :=
  (nodes.foldlM (fun m p => g.visit (nodes.length + 1) [] p m) {}).map Marks.order

end Walk

/-! ## Orders and faults -/

variable (g : Sorting α κ ε) {nodes order : List α} {m m' : Marks α κ} {p d : α}

def targets (p : α) : List α := (g.edges p).filterMap Except.toOption

/-- Every edge leads to something further left. -/
def Sorted (order : List α) : Prop :=
  ∀ pre p post, order = pre ++ p :: post → ∀ edge ∈ g.edges p, ∃ d ∈ pre, edge = .ok d

/-- An edge is broken, or lies on a cycle. -/
def Faulty (nodes : List α) : Prop :=
  ∃ p ∈ nodes, (∃ e, .error e ∈ g.edges p) ∨ ∃ d ∈ g.targets p, Reaches g.targets d p

variable {g}

theorem mem_targets : d ∈ g.targets p ↔ .ok d ∈ g.edges p := by
  unfold targets
  rw [List.mem_filterMap]
  constructor
  · rintro ⟨edge, hedge, hok⟩
    cases edge with
    | error e => cases hok
    | ok d' =>
        cases hok
        exact hedge
  · intro h
    exact ⟨_, h, rfl⟩

theorem Sorted.nil : g.Sorted [] := by
  intro pre p post h
  exact absurd h.symm (List.append_ne_nil_of_right_ne_nil pre (List.cons_ne_nil p post))

theorem Sorted.concat (h : g.Sorted order) (hp : ∀ edge ∈ g.edges p, ∃ d ∈ order, edge = .ok d) :
    g.Sorted (order ++ [p]) := by
  intro pre q post heq
  rcases List.eq_nil_or_concat post with rfl | ⟨post, x, rfl⟩
  · obtain ⟨rfl, hq⟩ := List.append_inj' heq rfl
    cases hq
    exact hp
  · have hsplit : order ++ [p] = (pre ++ q :: post) ++ [x] := by rw [heq]; simp
    obtain ⟨hpre, -⟩ := List.append_inj' hsplit rfl
    exact h pre q post hpre

theorem Sorted.edge (h : g.Sorted order) (hp : p ∈ order) {edge : Except ε α} (hedge : edge ∈ g.edges p) :
    ∃ d ∈ order, edge = .ok d := by
  obtain ⟨pre, post, rfl⟩ := List.append_of_mem hp
  obtain ⟨d, hd, rfl⟩ := h pre p post rfl edge hedge
  exact ⟨d, List.mem_append_left _ hd, rfl⟩

/-- Behind a vertex stands nothing that it reaches. -/
theorem Sorted.reaches (h : g.Sorted order) {pre post : List α} (heq : order = pre ++ post) (hp : p ∈ pre)
    (hr : Reaches g.targets p d) : d ∈ pre := by
  refine hr.mem_of_closed ?_ hp
  intro v hv w hw
  obtain ⟨s, t, rfl⟩ := List.append_of_mem hv
  obtain ⟨d', hd', hok⟩ := h s v (t ++ post) (by rw [heq]; simp) _ (mem_targets.mp hw)
  cases hok
  exact List.mem_append_left _ hd'

/-- A sorted list of distinct vertices has no broken edge and no cycle. -/
theorem Sorted.not_faulty (h : g.Sorted order) (hnodup : order.Nodup) : ¬ g.Faulty order := by
  rintro ⟨p, hp, ⟨e, he⟩ | ⟨d, hd, hr⟩⟩
  · obtain ⟨d, -, hok⟩ := h.edge hp he
    cases hok
  · obtain ⟨pre, post, rfl⟩ := List.append_of_mem hp
    obtain ⟨d', hd', hok⟩ := h pre p post rfl _ (mem_targets.mp hd)
    cases hok
    have hmem : p ∈ pre := h.reaches (by rfl) hd' hr
    exact (List.nodup_append.mp hnodup).2.2 p hmem p List.mem_cons_self rfl

/-! ## The walk -/

variable (g) in
/-- What holds of the marks at every point of the walk. -/
structure Sound (nodes : List α) (m : Marks α κ) : Prop where
  visited : ∀ k, k ∈ m.visited ↔ ∃ p ∈ m.order, g.key p = k
  nodup : (m.order.map g.key).Nodup
  listed : m.order ⊆ nodes
  sorted : g.Sorted m.order
  path : m.visiting ⊆ nodes.map g.key
  path_nodup : m.visiting.Nodup
  apart : ∀ k ∈ m.visiting, k ∉ m.visited

variable (g) in
/-- A walk has listed what `P` asks for, or has met a fault. -/
def Outcome (nodes : List α) (m : Marks α κ) (P : List α → Prop) : Except (Option ε) (Marks α κ) → Prop
  | .ok m' => g.Sound nodes m' ∧ m'.visiting = m.visiting ∧ m.order ⊆ m'.order ∧ P m'.order
  | .error none => False
  | .error (some _) => g.Faulty nodes

variable (g) in
/-- All that is on the path leads to `p`. -/
def LeadsTo (nodes : List α) (path : List κ) (p : α) : Prop :=
  ∀ q ∈ nodes, g.key q ∈ path → ∃ d ∈ g.targets q, Reaches g.targets d p

theorem Sound.path_le (h : g.Sound nodes m) : m.visiting.length ≤ nodes.length := by
  have hle := (List.subperm_of_subset h.path_nodup h.path).length_le
  rwa [List.length_map] at hle

theorem Outcome.mono {P Q : List α → Prop} {r : Except (Option ε) (Marks α κ)} (h : g.Outcome nodes m P r)
    (hPQ : ∀ o, P o → Q o) : g.Outcome nodes m Q r := by
  cases r with
  | ok m' => exact ⟨h.1, h.2.1, h.2.2.1, hPQ _ h.2.2.2⟩
  | error e => cases e <;> exact h

theorem foldlM_outcome {β : Type*} {f : Marks α κ → β → Except (Option ε) (Marks α κ)} {P : β → List α → Prop}
    (xs : List β) (hmono : ∀ x o o', o ⊆ o' → P x o → P x o')
    (hf : ∀ x ∈ xs, ∀ m', g.Sound nodes m' → m'.visiting = m.visiting → g.Outcome nodes m' (P x) (f m' x))
    (hs : g.Sound nodes m) : g.Outcome nodes m (fun o => ∀ x ∈ xs, P x o) (xs.foldlM f m) := by
  induction xs generalizing m with
  | nil => exact ⟨hs, rfl, List.Subset.refl _, by simp⟩
  | cons x xs ih =>
      have hx := hf x List.mem_cons_self m hs rfl
      rw [List.foldlM_cons]
      cases hres : f m x with
      | error e =>
          rw [hres] at hx
          cases e <;> exact hx
      | ok m₁ =>
          rw [hres] at hx
          obtain ⟨hs₁, hv₁, hsub₁, hP⟩ := hx
          have hrest := ih (m := m₁) (fun y hy m' hm' hv' =>
            hf y (List.mem_cons_of_mem x hy) m' hm' (hv'.trans hv₁)) hs₁
          change g.Outcome nodes m _ (xs.foldlM f m₁)
          cases hres' : xs.foldlM f m₁ with
          | error e =>
              rw [hres'] at hrest
              cases e <;> exact hrest
          | ok m₂ =>
              rw [hres'] at hrest
              obtain ⟨hs₂, hv₂, hsub₂, hPs⟩ := hrest
              refine ⟨hs₂, hv₂.trans hv₁, List.Subset.trans hsub₁ hsub₂, fun y hy => ?_⟩
              rcases List.mem_cons.mp hy with rfl | hy
              · exact hmono _ _ _ hsub₂ hP
              · exact hPs y hy

theorem Sound.enter [DecidableEq κ] (h : g.Sound nodes m) (hp : p ∈ nodes) (hdone : g.key p ∉ m.visited)
    (hpath : g.key p ∉ m.visiting) : g.Sound nodes { m with visiting := g.key p :: m.visiting } where
  visited := h.visited
  nodup := h.nodup
  listed := h.listed
  sorted := h.sorted
  path := List.cons_subset.mpr ⟨List.mem_map_of_mem hp, h.path⟩
  path_nodup := List.nodup_cons.mpr ⟨hpath, h.path_nodup⟩
  apart := fun k hk => by
    rcases List.mem_cons.mp hk with rfl | hk
    · exact hdone
    · exact h.apart k hk

/-- Leaving it, once all its edges lead to something that is listed. -/
theorem Sound.leave [DecidableEq κ] {path : List κ} (h : g.Sound nodes m) (hpath : m.visiting = g.key p :: path)
    (hp : p ∈ nodes) (hedges : ∀ edge ∈ g.edges p, ∃ d ∈ m.order, edge = .ok d) :
    g.Sound nodes
      { visited := g.key p :: m.visited, visiting := m.visiting.erase (g.key p), order := m.order ++ [p] } := by
  have hdone : g.key p ∉ m.visited := h.apart _ (by rw [hpath]; exact List.mem_cons_self)
  have hnew : g.key p ∉ m.order.map g.key := by
    intro hmem
    obtain ⟨q, hq, hkey⟩ := List.mem_map.mp hmem
    exact hdone ((h.visited _).mpr ⟨q, hq, hkey⟩)
  have hnodup := h.path_nodup
  have hsub := h.path
  have hapart := h.apart
  rw [hpath] at hnodup hsub hapart
  obtain ⟨hout, hnodup⟩ := List.nodup_cons.mp hnodup
  rw [hpath, List.erase_cons_head]
  constructor
  case visited =>
    intro k
    rw [List.mem_cons, h.visited k]
    constructor
    · rintro (rfl | ⟨q, hq, rfl⟩)
      · exact ⟨p, List.mem_append_right _ (List.mem_singleton.mpr rfl), rfl⟩
      · exact ⟨q, List.mem_append_left _ hq, rfl⟩
    · rintro ⟨q, hq, rfl⟩
      rcases List.mem_append.mp hq with hq | hq
      · exact .inr ⟨q, hq, rfl⟩
      · exact .inl (by rw [List.mem_singleton.mp hq])
  case nodup =>
    rw [List.map_append, List.map_singleton]
    exact List.nodup_append.mpr ⟨h.nodup, List.nodup_singleton _, fun a ha b hb hab => by
      rw [List.mem_singleton] at hb
      exact hnew (hb ▸ hab ▸ ha)⟩
  case listed => exact List.append_subset.mpr ⟨h.listed, fun q hq => List.mem_singleton.mp hq ▸ hp⟩
  case sorted => exact h.sorted.concat hedges
  case path => exact (List.cons_subset.mp hsub).2
  case path_nodup => exact hnodup
  case apart =>
    intro k hk hmem
    rcases List.mem_cons.mp hmem with rfl | hmem
    · exact hout hk
    · exact hapart k (List.mem_cons_of_mem _ hk) hmem

section Spec

variable [DecidableEq κ] (hkeys : (nodes.map g.key).Nodup) (hclosed : ∀ p ∈ nodes, g.targets p ⊆ nodes)

include hkeys hclosed

theorem visit_outcome {fuel : Nat} {stack : List κ} (hs : g.Sound nodes m) (hp : p ∈ nodes)
    (hto : g.LeadsTo nodes m.visiting p) (hfuel : nodes.length < fuel + m.visiting.length) :
    g.Outcome nodes m (p ∈ ·) (g.visit fuel stack p m) := by
  induction fuel generalizing stack p m with
  | zero =>
      have := hs.path_le
      omega
  | succ fuel ih =>
      rw [visit]
      split
      · rename_i hdone
        obtain ⟨q, hq, hkey⟩ := (hs.visited _).mp hdone
        have hsame : q = p := List.inj_on_of_nodup_map hkeys (hs.listed hq) hp hkey
        exact ⟨hs, rfl, List.Subset.refl _, hsame ▸ hq⟩
      · rename_i hdone
        split
        · rename_i hpath
          exact ⟨p, hp, .inr (hto p hp hpath)⟩
        · rename_i hpath
          have henter := hs.enter hp hdone hpath
          -- an edge leads to a vertex that everything on the path, `p` included, leads to
          have hedges := foldlM_outcome (f := follow (g.visit fuel (stack ++ [g.key p])))
            (P := fun edge o => ∃ d ∈ o, edge = Except.ok d) (g.edges p)
            (fun _ _ _ hsub ⟨d, hd, hok⟩ => ⟨d, hsub hd, hok⟩)
            (fun edge hedge m' hm' hv' => by
              cases edge with
              | error e => exact ⟨p, hp, .inl ⟨e, hedge⟩⟩
              | ok d =>
                  have hd := mem_targets.mpr hedge
                  have hgo := @ih m' d (stack ++ [g.key p]) hm' (hclosed p hp hd) (by
                    rw [hv']
                    intro q hq hmem
                    rcases List.mem_cons.mp hmem with hsame | hmem
                    · obtain rfl := List.inj_on_of_nodup_map hkeys hq hp hsame
                      exact ⟨d, hd, Reaches.refl d⟩
                    · obtain ⟨d', hd', hr⟩ := hto q hq hmem
                      exact ⟨d', hd', hr.tail hd⟩) (by
                    rw [hv', List.length_cons]
                    omega)
                  exact hgo.mono fun o ho => ⟨d, ho, rfl⟩) henter
          cases hres : (g.edges p).foldlM (follow (g.visit fuel (stack ++ [g.key p])))
              { m with visiting := g.key p :: m.visiting } with
          | error e =>
              rw [hres] at hedges
              cases e <;> exact hedges
          | ok m₁ =>
              rw [hres] at hedges
              obtain ⟨hs₁, hv₁, hsub₁, hall⟩ := hedges
              refine ⟨hs₁.leave hv₁ hp hall, ?_, fun q hq => List.mem_append_left _ (hsub₁ hq),
                List.mem_append_right _ (List.mem_singleton.mpr rfl)⟩
              simp only [hv₁, List.erase_cons_head]

/-- Sorting distinct vertices does not run out of fuel. It ends with an order of all of them in which every
edge leads to something further left, or there is a fault. -/
theorem sort_outcome :
    (∃ order, g.sort nodes = .ok order ∧ order.Perm nodes ∧ g.Sorted order ∧ ¬ g.Faulty nodes) ∨
      (∃ e, g.sort nodes = .error (some e)) ∧ g.Faulty nodes := by
  have hempty : g.Sound nodes {} :=
    ⟨by simp, by simp, by simp, Sorted.nil, by simp, by simp, by simp⟩
  have hall := foldlM_outcome (f := fun m p => g.visit (nodes.length + 1) [] p m) (P := fun p o => p ∈ o)
    nodes (fun _ _ _ hsub hp => hsub hp)
    (fun p hp m hm hv => visit_outcome hkeys hclosed hm hp (by
      rw [hv]
      exact fun q _ hq => absurd hq List.not_mem_nil) (by omega)) hempty
  unfold sort
  cases hres : nodes.foldlM (fun m p => g.visit (nodes.length + 1) [] p m) {} with
  | error e =>
      rw [hres] at hall
      cases e with
      | none => exact hall.elim
      | some e => exact .inr ⟨⟨e, rfl⟩, hall⟩
  | ok m =>
      rw [hres] at hall
      obtain ⟨hs, -, -, hmem⟩ := hall
      have hnodup : m.order.Nodup := hs.nodup.of_map _
      have hperm : m.order.Perm nodes :=
        (List.perm_ext_iff_of_nodup hnodup (hkeys.of_map _)).mpr fun p => ⟨fun h => hs.listed h, hmem p⟩
      refine .inl ⟨m.order, rfl, hperm, hs.sorted, ?_⟩
      rintro ⟨p, hp, hfault⟩
      exact hs.sorted.not_faulty hnodup ⟨p, hperm.mem_iff.mpr hp, hfault⟩

end Spec

end Sorting

end WrongStack.Lib
