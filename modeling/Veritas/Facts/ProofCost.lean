import Veritas.Facts.ProofForest

/-! The 64-bit totals of the relaxation loop against the sums they stand for. -/
namespace Veritas

open Hypergraph Relaxation List Derivation

namespace Prepared

def isRoot (p : Prepared) (id : ℕ) : Bool := (p.index.rootRows id).isSome

def edges (p : Prepared) : Fin (p.derivations.map (·.edge)).length → Edge ℕ :=
  (p.derivations.map (·.edge)).get

/-- The states the relaxation loop goes through. -/
def LoopState (p : Prepared) : Work ℕ (p.derivations.map (·.edge)).length → Prop :=
  Work.Reached p.edges (Work.init p.isRoot _)

theorem loopState_relaxed (p : Prepared) : p.LoopState (relax p.isRoot p.edges) :=
  (Work.run_reached p.edges .start).1

/-- The total of every visited derivation is the sum it stands for, and is not the cost that
stands for no proof. -/
def TotalsExact (p : Prepared) : Prop :=
  ∀ w, p.LoopState w → ∀ i t, total w.cost (p.edges i).inputs = some t →
    t.toNat = weight (fun b => (w.cost b).toNat) (p.edges i) ∧ t ≠ unproven

end Prepared

/-- The checked derivations over ids are the proof steps over keys. -/
theorem Prepares.fits {p : Prepared} {roots results : List SemanticRow} {edges : List WitnessEdge}
    (hp : Prepares p roots results edges) (hfits : CountableTrees roots edges) :
    Fits (rootSet p.isRoot) (Set.range p.edges) (2 ^ 64 - 1) := by
  refine Fits.of_map hfits (nameOf_injOn p.index.rows) (fun id hid => ?_) ?_
  · obtain ⟨k, hk, hnames⟩ := hp.indexes.root_isSome.mp hid
    rwa [nameOf_eq hnames]
  · rintro _ ⟨i, rfl⟩
    obtain ⟨d, hd, hedge⟩ := mem_map.mp (get_mem (p.derivations.map edge) i)
    obtain ⟨g, hg⟩ := hp.named
    change ((p.derivations.map edge).get i).map _ ∈ _ ∧
      ((p.derivations.map edge).get i).result ∈ _
    rw [← hedge]
    refine ⟨?_, (hp.rows d hd).1⟩
    rw [← edge_map _ g]
    exact mem_map_of_mem (hg ▸ mem_map_of_mem hd)

variable {n : ℕ}

/-- As long as it can be counted, the cost of a level is the size of its one proof. -/
theorem copyLevel_input_cost (hn : 2 ^ (n + 1) - 2 < 2 ^ 64 - 1) :
    (stepCosts [levelRow 0] (towerEdges n (copyLevel n))).2 (levelKey n) =
      UInt64.ofNat (2 ^ (n + 1) - 2) := by
  have htree := tower_tree (Nat.le_succ n) (copyLevel_tops n) (Nat.le_refl n)
  unfold ProofTree at htree
  rw [← rootSet_isRootKey, ← range_steps] at htree
  have hle : ((stepWork [levelRow 0] (towerEdges n (copyLevel n))).cost (levelKey n)).toNat ≤ _ :=
    cost_le_of_tree htree hn
  have hne : (stepWork [levelRow 0] (towerEdges n (copyLevel n))).cost (levelKey n) ≠
      unproven := by
    intro heq
    rw [heq, toNat_unproven] at hle
    omega
  obtain ⟨k, hk, hcost⟩ := (stepWork_invariant _ _).exists_tree hne
  rw [rootSet_isRootKey, range_steps] at hk
  obtain rfl := tower_tree_size (Nat.le_succ n) (copyLevel_tops n) copyLevel_result_ne hk
  exact hcost

theorem copyLevel_total (hn : 2 ^ (n + 1) - 2 < 2 ^ 64 - 1) :
    total (stepCosts [levelRow 0] (towerEdges n (copyLevel n))).2 [levelKey n] =
      some (UInt64.ofNat (2 ^ (n + 1) - 1)) := by
  have hpos := Nat.two_pow_pos n
  have hcost := copyLevel_input_cost hn
  generalize (stepCosts [levelRow 0] (towerEdges n (copyLevel n))).2 = cost at hcost ⊢
  refine (total_eq_some (e := ⟨levelKey (n + 1), [levelKey n]⟩)).mpr ⟨?_, ?_⟩
  · intro b hb heq
    rw [mem_singleton.mp hb, hcost] at heq
    have hnat := congrArg UInt64.toNat heq
    rw [toNat_ofNat_of_lt (by omega), toNat_unproven] at hnat
    omega
  · rw [weight, map_singleton, sum_singleton, hcost, toNat_ofNat_of_lt (by omega),
      length_singleton, pow_succ]
    congr 1
    omega

/-- Once the joins below it are costed, the copy's total is one more than the cost of its input. -/
theorem copyLevel_loopTotal (hn : 2 ^ (n + 1) - 2 < 2 ^ 64 - 1) : ∃ p,
    prepare [towerRoot] (towerRaw n (copyLevel n) (n + 1)) = .ok p ∧ ∃ w, p.LoopState w ∧
      ∃ i, total w.cost (p.edges i).inputs = some (UInt64.ofNat (2 ^ (n + 1) - 1)) := by
  obtain ⟨p, hprep⟩ := tower_prepare (Nat.le_succ n) (copyLevel_tops n)
  refine ⟨p, hprep, _, p.loopState_relaxed, ?_⟩
  have hp : Prepares p [levelRow 0] (levelRows (n + 1)) (towerEdges n (copyLevel n)) :=
    (prepare_spec hprep).2
  obtain ⟨g, hg⟩ := hp.named
  have hstep := (tower_steps (Nat.le_succ n) (copyLevel_tops n)).mpr (.inr rfl)
  rw [← hg] at hstep
  obtain ⟨d, hd, hnamed⟩ := mem_map.mp hstep
  obtain ⟨i, hi⟩ := get_of_mem (mem_map_of_mem (f := edge) hd)
  have hinputs : d.edge.inputs.map (nameOf p.index.rows) = [levelKey n] := by
    have hedge := congrArg (fun d : ProofStep => d.edge.inputs) hnamed
    rw [edge_map, RuleUse.step_edge] at hedge
    exact hedge
  have hcost : ∀ b ∈ d.edge.inputs, (stepCosts [levelRow 0] (towerEdges n (copyLevel n))).2
      (nameOf p.index.rows b) = (relax p.isRoot p.edges).cost b := by
    intro b hb
    obtain ⟨q, hq, rfl⟩ := mem_map.mp hb
    exact (hp.costs_named.2 q.2 ((hp.rows d hd).2 q hq)).symm
  refine ⟨i, ?_⟩
  change total _ ((p.derivations.map edge).get i).inputs = _
  rw [hi, ← total_map hcost, hinputs]
  exact copyLevel_total hn

end Veritas
