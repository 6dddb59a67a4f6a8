import AlgebraicTerms.Term.Traversal
import Mathlib.Data.List.Nodup
import Mathlib.Logic.Function.Iterate
import Mathlib.Logic.Relation

/-!
# Walks

The walk with a stack visits every node of a tree exactly once, children before parents, and ends
(`walk_visits_once`).  A node on top of the stack is dealt with, together with all nodes below it,
before anything else (`Walk.run_subtree`).  What carries the induction is that nothing below a node
was visited last when the walk first comes to it: so it goes down, and visits the node on its way back.
-/

namespace AlgebraicTerms.Term

variable {α : Type}

/-! ## The nodes below a node -/

/-- The nodes of a subtree at an address, children before parents. -/
def nodesAt (a : Address) : Term α → List (Node α)
  | call k t => nodesAt (false :: a) t ++ [⟨a, call k t⟩]
  | inv i t => nodesAt (false :: a) t ++ [⟨a, inv i t⟩]
  | bin op l r => nodesAt (false :: a) l ++ nodesAt (true :: a) r ++ [⟨a, bin op l r⟩]
  | t => [⟨a, t⟩]

theorem map_term_nodesAt (a : Address) (t : Term α) :
    (nodesAt a t).map Node.term = t.postOrder := by
  induction t generalizing a with
  | call k t ih | inv i t ih => simp only [nodesAt, postOrder, List.map_append, ih, List.map]
  | bin op l r ihl ihr => simp only [nodesAt, postOrder, List.map_append, ihl, ihr, List.map]
  | _ => rfl

theorem length_nodesAt (a : Address) (t : Term α) : (nodesAt a t).length = t.nodeCount := by
  induction t generalizing a with
  | call k t ih | inv i t ih => simp only [nodesAt, nodeCount, List.length_append, ih, List.length]
  | bin op l r ihl ihr => simp only [nodesAt, nodeCount, List.length_append, ihl, ihr, List.length]
  | _ => rfl

namespace Node

def nodes (n : Node α) : List (Node α) := nodesAt n.address n.term

/-- Whether the second node is a child of the first. -/
def HasChild (n m : Node α) : Prop := m ∈ n.children

theorem nodes_eq (n : Node α) : n.nodes = n.children.flatMap nodes ++ [n] := by
  obtain ⟨a, t⟩ := n
  cases t <;> simp [nodes, children, nodesAt]

/-- The tree below a node is built from those below its children. -/
theorem inductionOn {motive : Node α → Prop} (n : Node α)
    (step : ∀ n : Node α, (∀ m ∈ n.children, motive m) → motive n) : motive n := by
  obtain ⟨a, t⟩ := n
  induction t generalizing a with
  | call k t ih | inv i t ih => exact step _ (by simpa [children] using ih _)
  | bin op l r ihl ihr => exact step _ (by simpa [children] using ⟨ihl _, ihr _⟩)
  | _ => exact step _ (by simp [children])

theorem address_of_mem_children {n m : Node α} (h : m ∈ n.children) :
    ∃ d, m.address = d :: n.address := by
  obtain ⟨a, t⟩ := n
  cases t with
  | call | inv => exact ⟨false, List.mem_singleton.1 h ▸ rfl⟩
  | bin op l r =>
      obtain rfl | h := List.mem_cons.1 h
      · exact ⟨false, rfl⟩
      · exact ⟨true, List.mem_singleton.1 h ▸ rfl⟩
  | _ => exact absurd h List.not_mem_nil

/-- Siblings stand at different addresses. -/
theorem pairwise_children (n : Node α) :
    n.children.Pairwise fun m m' => m.address ≠ m'.address := by
  obtain ⟨a, t⟩ := n
  cases t <;> simp [children]

/-- The address of a node leads through those of all nodes above it. -/
theorem suffix_of_mem_nodes {n m : Node α} (h : m ∈ n.nodes) : n.address <:+ m.address := by
  induction n using inductionOn with
  | step n ih =>
      rw [nodes_eq, List.mem_append, List.mem_flatMap, List.mem_singleton] at h
      obtain ⟨c, hc, below⟩ | rfl := h
      · obtain ⟨d, hd⟩ := address_of_mem_children hc
        exact (hd ▸ List.suffix_cons d n.address).trans (ih c hc below)
      · exact List.suffix_rfl

/-- The nodes of a tree are told apart by their addresses. -/
theorem nodup_nodes (n : Node α) : (n.nodes.map address).Nodup := by
  induction n using inductionOn with
  | step n ih =>
      have apart : n.children.Pairwise fun c c' =>
          List.Disjoint (c.nodes.map address) (c'.nodes.map address) := by
        refine n.pairwise_children.imp_of_mem fun {c c'} hc hc' different b hb hb' => different ?_
        obtain ⟨m, hm, rfl⟩ := List.mem_map.1 hb
        obtain ⟨m', hm', same⟩ := List.mem_map.1 hb'
        obtain ⟨d, hd⟩ := address_of_mem_children hc
        obtain ⟨d', hd'⟩ := address_of_mem_children hc'
        have long : c.address.length = c'.address.length := by
          rw [hd, hd', List.length_cons, List.length_cons]
        have under' : c'.address <:+ m.address := same ▸ suffix_of_mem_nodes hm'
        have under : c.address <:+ c'.address := List.suffix_of_suffix_length_le
          (suffix_of_mem_nodes hm) under' (Nat.le_of_eq long)
        exact under.eq_of_length long
      have above : n.address ∉ (n.children.flatMap nodes).map address := by
        intro mem
        obtain ⟨m, hm, same⟩ := List.mem_map.1 mem
        obtain ⟨c, hc, hm⟩ := List.mem_flatMap.1 hm
        obtain ⟨d, hd⟩ := address_of_mem_children hc
        have longer := (suffix_of_mem_nodes hm).length_le
        rw [hd, same, List.length_cons] at longer
        omega
      rw [nodes_eq, List.map_append, List.map_singleton]
      refine List.Nodup.append ?_ (List.nodup_singleton _) (List.disjoint_singleton.2 above)
      rw [List.map_flatMap]
      exact List.nodup_flatMap.2 ⟨ih, apart⟩

/-- A node is in a tree if it is reached from the root through children. -/
theorem mem_nodes_iff {n m : Node α} : m ∈ n.nodes ↔ Relation.ReflTransGen HasChild n m := by
  induction n using inductionOn with
  | step n ih =>
      rw [nodes_eq, List.mem_append, List.mem_flatMap, List.mem_singleton,
        Relation.ReflTransGen.cases_head_iff, or_comm, eq_comm]
      refine or_congr_right (exists_congr fun c => ?_)
      exact and_congr_right fun hc => ih c hc

end Node

/-! ## Runs -/

namespace Walk

/-- The walk visits these nodes in the given number of steps, and then goes on from there. -/
def Run (w : Walk α) (steps : Nat) (visited : List (Node α)) (w' : Walk α) : Prop :=
  w.visits steps = visited ∧ step^[steps] w = w'

namespace Run

variable {w w' w'' : Walk α} {j k : Nat} {ns ms : List (Node α)}

theorem zero (w : Walk α) : w.Run 0 [] w := ⟨rfl, rfl⟩

theorem succ (h : w.step.Run k ns w') : w.Run (k + 1) (w.visited?.toList ++ ns) w' :=
  ⟨congrArg (w.visited?.toList ++ ·) h.1, h.2⟩

theorem trans (h : w.Run j ns w') (h' : w'.Run k ms w'') : w.Run (j + k) (ns ++ ms) w'' := by
  induction j generalizing w ns with
  | zero =>
      obtain ⟨rfl, rfl⟩ := h
      rw [Nat.zero_add]
      exact h'
  | succ j ih =>
      obtain ⟨rfl, rfl⟩ := h
      rw [Nat.succ_add, visits, List.append_assoc]
      exact (ih ⟨rfl, rfl⟩).succ

end Run

/-- No node below the address was visited last. -/
def Unseen (last : Option Address) (a : Address) : Prop := ∀ b ∈ last, ∀ d, ¬ (d :: a) <:+ b

section Subtree

variable {a : Address} {t : Term α} {below : List (Node α)} {last : Option Address} {n : Node α}

theorem Unseen.child (h : Unseen last a) (d : Bool) : Unseen last (d :: a) :=
  fun b hb e under => h b hb d ((List.suffix_cons e (d :: a)).trans under)

theorem unseen_sibling (d e : Bool) (a : Address) : Unseen (some (d :: a)) (e :: a) := by
  rintro b ⟨⟩ f under
  exact absurd under.length_le (by simp)

theorem Unseen.ne (h : Unseen last a) (d : Bool) : last ≠ some (d :: a) :=
  fun seen => h _ seen d List.suffix_rfl

theorem run_visit (ready : isReady ⟨n :: below, last⟩ n = true) :
    Run ⟨n :: below, last⟩ 1 [n] ⟨below, some n.address⟩ :=
  ⟨by simp [visits, visited?, ready], by simp [step, ready]⟩

theorem run_descend (busy : isReady ⟨n :: below, last⟩ n = false) :
    Run ⟨n :: below, last⟩ 1 [] ⟨n.children ++ n :: below, last⟩ :=
  ⟨by simp [visits, visited?, busy], by simp [step, busy]⟩

/-- A node whose children were not visited yet is visited after them. -/
theorem run_parent {c : Node α} {k : Nat} {ns : List (Node α)}
    (hlast : n.children.getLast? = some c) (new : last ≠ some c.address)
    (run : Run ⟨n.children ++ n :: below, last⟩ k ns ⟨n :: below, some c.address⟩) :
    Run ⟨n :: below, last⟩ (1 + k + 1) (ns ++ [n]) ⟨below, some n.address⟩ := by
  have descend : Run ⟨n :: below, last⟩ 1 [] ⟨n.children ++ n :: below, last⟩ :=
    run_descend (by simpa [isReady, hlast])
  have visit : Run ⟨n :: below, some c.address⟩ 1 [n] ⟨below, some n.address⟩ :=
    run_visit (by simp [isReady, hlast])
  exact (descend.trans run).trans visit

/-- A node that is met for the first time is visited after all nodes below it and before others. -/
theorem run_subtree (unseen : Unseen last a) :
    ∃ k ≤ 2 * t.nodeCount, Run ⟨⟨a, t⟩ :: below, last⟩ k (nodesAt a t) ⟨below, some a⟩ := by
  induction t generalizing a below last with
  | call k t ih | inv i t ih =>
      obtain ⟨steps, few, run⟩ := ih (unseen.child false)
      exact ⟨1 + steps + 1, by rw [nodeCount]; omega,
        run_parent (c := ⟨false :: a, t⟩) rfl (unseen.ne _) run⟩
  | bin op l r ihl ihr =>
      obtain ⟨steps, few, run⟩ := ihl (unseen.child false)
      obtain ⟨steps', few', run'⟩ := ihr (unseen_sibling false true a)
      exact ⟨1 + (steps + steps') + 1, by rw [nodeCount]; omega,
        run_parent (c := ⟨true :: a, r⟩) rfl (unseen.ne _) (run.trans run')⟩
  | _ => exact ⟨1, by simp [nodeCount], run_visit rfl⟩

theorem run_empty (last : Option Address) (steps : Nat) :
    Run (α := α) ⟨[], last⟩ steps [] ⟨[], last⟩ := by
  induction steps with
  | zero => exact .zero _
  | succ steps ih => exact ih.succ

end Subtree

end Walk

/-- A walk comes to an end, and until then it visits each node of the tree exactly once, in the order
in which the recursion lists them. -/
theorem walk_visits_once (t : Term α) :
    let visited := (Walk.start t).visits (2 * t.nodeCount)
    (∀ steps ≥ 2 * t.nodeCount, (Walk.step^[steps] (Walk.start t)).stack = [] ∧
        (Walk.start t).visits steps = visited) ∧
      (visited.map Node.address).Nodup ∧
      (∀ n, n ∈ visited ↔ Relation.ReflTransGen Node.HasChild ⟨[], t⟩ n) ∧
      t.walk = t.postOrder ∧ t.walk.length = t.nodeCount := by
  obtain ⟨k, few, run⟩ : ∃ k ≤ 2 * t.nodeCount,
      (Walk.start t).Run k (Node.nodes ⟨[], t⟩) ⟨[], some []⟩ := Walk.run_subtree nofun
  have ended (steps : Nat) (enough : 2 * t.nodeCount ≤ steps) :
      (Walk.start t).Run steps (Node.nodes ⟨[], t⟩) ⟨[], some []⟩ := by
    have rest := run.trans (Walk.run_empty _ (steps - k))
    rwa [Nat.add_sub_cancel' (Nat.le_trans few enough), List.append_nil] at rest
  have listed := (ended _ (Nat.le_refl _)).1
  have walked : t.walk = t.postOrder := by
    rw [walk, listed]
    exact map_term_nodesAt [] t
  refine ⟨fun steps enough => ?_, ?_, ?_, walked, ?_⟩
  · obtain ⟨same, last⟩ := ended steps enough
    exact ⟨congrArg Walk.stack last, same.trans listed.symm⟩
  · rw [listed]
    exact Node.nodup_nodes _
  · rw [listed]
    exact fun n => Node.mem_nodes_iff
  · rw [walk, List.length_map, listed]
    exact length_nodesAt [] t

/-- Equal subtrees are visited one after the other. -/
example :
    let t : Term Nat := inv .neg (num 1)
    (bin .add t t).walk = [num 1, t, num 1, t, bin .add t t] := rfl

end AlgebraicTerms.Term
