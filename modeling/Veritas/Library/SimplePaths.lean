import Mathlib.Algebra.Ring.Nat
import Mathlib.Data.Finset.Basic

/-! Simple paths of a finite graph: depth-bounded enumeration and a stack search. -/
namespace SimplePaths

open List

variable {V E : Type*}

/-- A walk over an adjacency list, with its vertices and its edges. -/
inductive Walk (adj : V → List (V × E)) : V → List V → List E → V → Prop
  | nil (v : V) : Walk adj v [v] [] v
  | cons {u w v : V} {e : E} {nodes : List V} {edges : List E} (hstep : (w, e) ∈ adj u)
      (hrest : Walk adj w nodes edges v) : Walk adj u (u :: nodes) (e :: edges) v

variable {adj : V → List (V × E)} {u v w : V} {nodes : List V} {edges : List E}

theorem Walk.cases_head (h : Walk adj u nodes edges v) :
    (nodes = [u] ∧ edges = [] ∧ u = v) ∨ ∃ w e nodes' edges', (w, e) ∈ adj u ∧
      Walk adj w nodes' edges' v ∧ nodes = u :: nodes' ∧ edges = e :: edges' := by
  cases h with
  | nil => exact .inl ⟨rfl, rfl, rfl⟩
  | cons hstep hrest => exact .inr ⟨_, _, _, _, hstep, hrest, rfl, rfl⟩

theorem Walk.exists_tail (h : Walk adj u nodes edges v) : ∃ rest, nodes = u :: rest := by
  cases h with
  | nil => exact ⟨[], rfl⟩
  | cons _ _ => exact ⟨_, rfl⟩

theorem Walk.target_mem (h : Walk adj u nodes edges v) : v ∈ nodes := by
  induction h with
  | nil => exact mem_singleton_self _
  | cons _ _ ih => exact mem_cons_of_mem _ ih

/-- What lies on a walk is reachable from its start. -/
theorem Walk.reach (h : Walk adj u nodes edges v) :
    Relation.ReflTransGen (fun a b => ∃ e, (b, e) ∈ adj a) u v := by
  induction h with
  | nil => exact .refl
  | cons hstep _ ih => exact .head ⟨_, hstep⟩ ih

variable {dst : V} {succ : V → List V} {visited : Finset V}

/-- What is visited leads to the target only through the stack. -/
theorem reach_through_stack {stack : List V} (hdst : dst ∉ visited)
    (hclosed : ∀ v ∈ visited, ∀ w ∈ succ v, w ∈ visited ∨ w ∈ stack) {a : V}
    (ha : Relation.ReflTransGen (fun a b => b ∈ succ a) a dst) (hvis : a ∈ visited) :
    ∃ b ∈ stack, Relation.ReflTransGen (fun a b => b ∈ succ a) b dst := by
  induction ha using Relation.ReflTransGen.head_induction_on with
  | refl => exact absurd hvis hdst
  | @head a b hab hb ih =>
    rcases hclosed a hvis b hab with hbv | hbs
    · exact ih hbv
    · exact ⟨b, hbs, hb⟩

section Search

variable [DecidableEq V]

/-- Depth-first extension of a path by at most `left` edges, never to a vertex already on it. -/
def search (adj : V → List (V × E)) (dst : V) : ℕ → List V → List E → V → List (List V × List E)
  | left, nodeStack, edgeStack, node =>
    if node = dst then [(nodeStack, edgeStack)]
    else match left with
      | 0 => []
      | left + 1 => (adj node).flatMap fun entry =>
          if entry.1 ∈ nodeStack then []
          else search adj dst left (nodeStack ++ [entry.1]) (edgeStack ++ [entry.2]) entry.1

variable {left : ℕ} {nodeStack : List V} {edgeStack : List E} {path : List V × List E}

/-- At the target only the path on the stack is found. -/
theorem mem_search_target (hnodup : nodeStack.Nodup) (hu : u ∈ nodeStack) :
    path ∈ search adj u left nodeStack edgeStack u ↔
      ∃ nodes edges, Walk adj u (u :: nodes) edges u ∧ (nodeStack ++ nodes).Nodup ∧
        edges.length ≤ left ∧ path = (nodeStack ++ nodes, edgeStack ++ edges) := by
  have hfound : search adj u left nodeStack edgeStack u = [(nodeStack, edgeStack)] := by
    cases left <;> rw [search, if_pos rfl]
  rw [hfound, mem_singleton]
  constructor
  · rintro rfl
    exact ⟨[], [], .nil u, by simpa using hnodup, Nat.zero_le _, by simp⟩
  · rintro ⟨nodes, edges, hwalk, hsimple, -, rfl⟩
    -- a longer walk would come back to the target, which is on the stack
    cases hwalk with
    | nil => simp
    | cons hstep hrest =>
      exact absurd rfl ((nodup_append.mp hsimple).2.2 u hu u hrest.target_mem)

/-- The search finds the simple extensions that the depth allows, and only those. -/
theorem mem_search (hnodup : nodeStack.Nodup) (hu : u ∈ nodeStack) :
    path ∈ search adj dst left nodeStack edgeStack u ↔
      ∃ nodes edges, Walk adj u (u :: nodes) edges dst ∧ (nodeStack ++ nodes).Nodup ∧
        edges.length ≤ left ∧ path = (nodeStack ++ nodes, edgeStack ++ edges) := by
  induction left generalizing nodeStack edgeStack u with
  | zero =>
    by_cases hdst : u = dst
    · subst hdst
      exact mem_search_target hnodup hu
    rw [search, if_neg hdst]
    constructor
    · exact fun h => absurd h not_mem_nil
    · rintro ⟨nodes, edges, hwalk, -, hlen, -⟩
      obtain rfl := length_eq_zero_iff.mp (Nat.le_zero.mp hlen)
      cases hwalk
      exact absurd rfl hdst
  | succ left ih =>
    by_cases hdst : u = dst
    · subst hdst
      exact mem_search_target hnodup hu
    rw [search, if_neg hdst, mem_flatMap]
    constructor
    · rintro ⟨⟨w, e⟩, hstep, hpath⟩
      by_cases hw : w ∈ nodeStack
      · rw [if_pos hw] at hpath
        exact absurd hpath not_mem_nil
      · rw [if_neg hw] at hpath
        have hnext := hnodup.append (nodup_singleton w) (disjoint_singleton.mpr hw)
        obtain ⟨nodes, edges, hwalk, hsimple, hlen, rfl⟩ := (ih hnext (by simp)).mp hpath
        refine ⟨w :: nodes, e :: edges, .cons hstep hwalk, ?_, Nat.succ_le_succ hlen, ?_⟩
        · rwa [append_cons]
        · simp
    · rintro ⟨nodes, edges, hwalk, hsimple, hlen, rfl⟩
      cases hwalk with
      | nil => exact absurd rfl hdst
      | @cons _ w _ e _ edges hstep hrest =>
        obtain ⟨rest, rfl⟩ := hrest.exists_tail
        refine ⟨(w, e), hstep, ?_⟩
        have hw : w ∉ nodeStack := fun hbad =>
          (nodup_append.mp hsimple).2.2 w hbad w mem_cons_self rfl
        rw [append_cons] at hsimple
        have hnext : (nodeStack ++ [w]).Nodup := (nodup_append.mp hsimple).1
        rw [if_neg hw]
        refine (ih hnext (by simp)).mpr ⟨rest, edges, hrest, hsimple, ?_, ?_⟩
        · exact Nat.le_of_succ_le_succ hlen
        · simp

/-- Takes vertices from the stack; `none` is a search cut short for want of fuel. -/
def reachLoop (succ : V → List V) (dst : V) : ℕ → Finset V → List V → Option Bool
  | _, _, [] => some false
  | 0, _, _ :: _ => none
  | fuel + 1, visited, node :: stack =>
    if node = dst then some true
    else if node ∈ visited then reachLoop succ dst fuel visited stack
    else reachLoop succ dst fuel (insert node visited) ((succ node).reverse ++ stack)

/-- The successors of the vertices not yet visited. -/
def pending (succ : V → List V) (sources : List V) (visited : Finset V) : ℕ :=
  ((sources.filter (· ∉ visited)).map fun v => (succ v).length).sum

variable {sources : List V}

theorem pending_insert {node : V} (hsources : sources.Nodup)
    (hempty : ∀ v, v ∉ sources → succ v = []) (hnode : node ∉ visited) :
    pending succ sources visited = (succ node).length + pending succ sources (insert node visited)
    := by
  have hother : ∀ l : List V, node ∉ l →
      l.filter (· ∉ insert node visited) = l.filter (· ∉ visited) := by
    intro l hl
    refine filter_congr fun v hv => ?_
    have hne : v ≠ node := fun h => hl (h ▸ hv)
    simp [hne]
  by_cases hmem : node ∈ sources
  · obtain ⟨pre, post, rfl⟩ := append_of_mem hmem
    have hsplit := nodup_append.mp hsources
    have hpost := nodup_cons.mp hsplit.2.1
    have hpre : node ∉ pre := fun hbad => hsplit.2.2 node hbad node mem_cons_self rfl
    simp only [pending, filter_append, map_append, sum_append]
    rw [hother pre hpre, filter_cons_of_pos (by simpa using hnode),
      filter_cons_of_neg (by simp), hother post hpost.1, map_cons, sum_cons]
    omega
  · rw [hempty node hmem, length_nil, Nat.zero_add, pending, pending, hother sources hmem]

/-- With fuel for every pending successor the search decides reachability from what is visited or
on the stack. -/
theorem reachLoop_spec (hsources : sources.Nodup) (hempty : ∀ v, v ∉ sources → succ v = [])
    {fuel : ℕ} {stack : List V} (hfuel : stack.length + pending succ sources visited ≤ fuel)
    (hdst : dst ∉ visited) (hclosed : ∀ v ∈ visited, ∀ w ∈ succ v, w ∈ visited ∨ w ∈ stack) :
    ∃ found, reachLoop succ dst fuel visited stack = some found ∧
      (found = true ↔ ∃ v ∈ stack, Relation.ReflTransGen (fun a b => b ∈ succ a) v dst) := by
  induction fuel generalizing visited stack with
  | zero =>
    obtain rfl : stack = [] := length_eq_zero_iff.mp (by omega)
    exact ⟨false, rfl, by simp⟩
  | succ fuel ih =>
    cases stack with
    | nil => exact ⟨false, rfl, by simp⟩
    | cons node stack =>
      by_cases hnode : node = dst
      · subst hnode
        exact ⟨true, by rw [reachLoop, if_pos rfl], by simpa using Or.inl .refl⟩
      · by_cases hseen : node ∈ visited
        · rw [length_cons] at hfuel
          have hrest : ∀ v ∈ visited, ∀ w ∈ succ v, w ∈ visited ∨ w ∈ stack := by
            intro v hv w hw
            obtain h | _ | ⟨_, h⟩ := hclosed v hv w hw
            exacts [.inl h, .inl hseen, .inr h]
          obtain ⟨found, hfound, hiff⟩ := @ih visited stack (by omega) hdst hrest
          refine ⟨found, by rw [reachLoop, if_neg hnode, if_pos hseen]; exact hfound, ?_⟩
          rw [hiff]
          constructor
          · rintro ⟨v, hv, hreach⟩
            exact ⟨v, mem_cons_of_mem _ hv, hreach⟩
          · rintro ⟨v, hv, hreach⟩
            rcases mem_cons.mp hv with rfl | hv
            · exact reach_through_stack hdst hrest hreach hseen
            · exact ⟨v, hv, hreach⟩
        · have hpending := pending_insert hsources hempty hseen
          have hfuel' : ((succ node).reverse ++ stack).length +
              pending succ sources (insert node visited) ≤ fuel := by
            rw [length_cons] at hfuel
            rw [length_append, length_reverse]
            omega
          have hdst' : dst ∉ insert node visited := by
            rw [Finset.mem_insert, not_or]
            exact ⟨fun h => hnode h.symm, hdst⟩
          have hrest : ∀ v ∈ insert node visited, ∀ w ∈ succ v,
              w ∈ insert node visited ∨ w ∈ (succ node).reverse ++ stack := by
            intro v hv w hw
            rw [Finset.mem_insert] at hv ⊢
            rw [mem_append, mem_reverse]
            rcases hv with rfl | hv
            · exact .inr (.inl hw)
            · obtain h | _ | ⟨_, h⟩ := hclosed v hv w hw
              exacts [.inl (.inr h), .inl (.inl rfl), .inr (.inr h)]
          obtain ⟨found, hfound, hiff⟩ := ih hfuel' hdst' hrest
          refine ⟨found, by rw [reachLoop, if_neg hnode, if_neg hseen]; exact hfound, ?_⟩
          rw [hiff]
          constructor
          · rintro ⟨v, hv, hreach⟩
            rcases mem_append.mp hv with hv | hv
            · exact ⟨node, mem_cons_self, .head (mem_reverse.mp hv) hreach⟩
            · exact ⟨v, mem_cons_of_mem _ hv, hreach⟩
          · rintro ⟨v, hv, hreach⟩
            rcases mem_cons.mp hv with rfl | hv
            · rcases Relation.ReflTransGen.cases_head hreach with heq | ⟨w, hstep, hrest⟩
              · exact absurd heq hnode
              · exact ⟨w, mem_append_left _ (mem_reverse.mpr hstep), hrest⟩
            · exact ⟨v, mem_append_right _ hv, hreach⟩

end Search

end SimplePaths
