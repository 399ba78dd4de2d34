import Mathlib.Data.List.TakeWhile
import Vearch.Ps.Resolver

-- When a partition server has the addresses of all replicas of its partitions.

namespace RaftResolver

variable {s s' : RaftResolver} {self pid node n : Nat} {a : Action} {replicas ids : List Nat} {nodes : Nodes}

-- `NodeAddress` succeeds for every replica of a hosted partition.
def Resolvable (s : RaftResolver) : Prop :=
  ∀ pid replicas, s.partitions.lookup pid = some replicas → ∀ node ∈ replicas, (s.nodes node).isSome

def Nodes.refCount (nodes : Nodes) (node : Nat) : Nat :=
  (nodes node).getD 0

def countIn (node : Nat) : List (Sigma fun _ : Nat => List Nat) → Nat
  | []      => 0
  | e :: es => e.2.count node + countIn node es

def listed (s : RaftResolver) (node : Nat) : Nat :=
  countIn node s.partitions.entries

def Inv (s : RaftResolver) : Prop :=
  ∀ node, s.listed node ≤ s.nodes.refCount node

-- There is a reference to the node that belongs to no partition.
def Spare (s : RaftResolver) (node : Nat) : Prop :=
  s.listed node < s.nodes.refCount node

-- A partition is created where there is none, with nodes that the master knows, a reference is given back by a
-- partition that lists the node, or there is a spare one, and none is added to a node that is being updated.
def Careful (self : Nat) (s : RaftResolver) : Action → Prop
  | .createPartition pid replicas found =>
    s.partitions.lookup pid = none ∧ ∀ node ∈ replicas, found node
  | .deleteReplica pid => ∀ replicas, s.partitions.lookup pid = some replicas → self ∈ replicas ∨ Spare s self
  | .applyMemberChange pid .remove node _ =>
    ∀ replicas, s.partitions.lookup pid = some replicas → node ∈ replicas ∨ Spare s node
  | .changedMember node => Spare s node
  | .updatedNode => ∀ node count, s.updating = some (node, count) → s.nodes.refCount node ≤ count
  | _ => True

theorem refCount_addNode : (nodes.addNode node).refCount n = nodes.refCount n + if node == n then 1 else 0 := by
  by_cases h : n = node
  · simp [Nodes.refCount, Nodes.addNode, h]
  · simp [Nodes.refCount, Nodes.addNode, h, Ne.symm h]

theorem refCount_deleteNode : (nodes.deleteNode node).refCount n = nodes.refCount n - if node == n then 1 else 0 := by
  unfold Nodes.refCount Nodes.deleteNode
  cases hc : nodes node
  case none =>
    by_cases h : n = node <;> simp [h, hc, Ne.symm]
  case some count =>
    by_cases h : n = node
    · subst h
      by_cases hle : count ≤ 1
      · simp [hc, hle]
      · simp [hc, hle]
    · simp [h, Ne.symm h]

theorem refCount_addNodes : (s.addNodes ids).nodes.refCount n = s.nodes.refCount n + ids.count n := by
  change (ids.foldl Nodes.addNode s.nodes).refCount n = _
  induction ids generalizing s
  case nil => rfl
  case cons id ids hi =>
    have hrest := hi (s := { s with nodes := s.nodes.addNode id })
    simp only [refCount_addNode] at hrest
    rw [List.foldl_cons, hrest, List.count_cons]
    omega

theorem refCount_deleteNodes : (s.deleteNodes ids).nodes.refCount n = s.nodes.refCount n - ids.count n := by
  change (ids.foldl Nodes.deleteNode s.nodes).refCount n = _
  induction ids generalizing s
  case nil => rfl
  case cons id ids hi =>
    have hrest := hi (s := { s with nodes := s.nodes.deleteNode id })
    simp only [refCount_deleteNode] at hrest
    rw [List.foldl_cons, hrest, List.count_cons]
    omega

theorem countIn_append {es es' : List (Sigma fun _ : Nat => List Nat)} :
    countIn n (es ++ es') = countIn n es + countIn n es' := by
  induction es
  case nil => exact (Nat.zero_add _).symm
  case cons e es hi => simp only [List.cons_append, countIn, hi, Nat.add_assoc]

theorem listed_del (h : s.partitions.lookup pid = some replicas) :
    s.listed n = replicas.count n + (s.del pid).listed n := by
  have hmem : pid ∈ s.partitions := AList.lookup_isSome.mp (h ▸ rfl)
  obtain ⟨rs, l₁, l₂, -, hl, herase⟩ := List.exists_of_kerase hmem
  have hrs : s.partitions.lookup pid = some rs := AList.mem_lookup_iff.mpr (hl ▸ by simp)
  cases h.symm.trans hrs
  have hdel : (s.del pid).partitions.entries = l₁ ++ l₂ := herase
  simp only [listed, hdel, hl, countIn_append, countIn]
  omega

theorem listed_put : (s.put pid replicas).listed n = replicas.count n + (s.del pid).listed n :=
  rfl

theorem listed_del_le : (s.del pid).listed n ≤ s.listed n := by
  cases h : s.partitions.lookup pid
  case none =>
    have hdel : (s.del pid).partitions.entries = s.partitions.entries :=
      List.kerase_of_notMem_keys (AList.lookup_eq_none.mp h)
    simp [listed, hdel]
  case some replicas =>
    rw [listed_del h]
    exact Nat.le_add_left ..

theorem Inv.resolvable (h : Inv s) : Resolvable s := by
  intro pid replicas hp node hnode
  have hlisted : 0 < s.listed node := by
    rw [listed_del hp]
    exact Nat.add_pos_left (List.count_pos_iff.mpr hnode) _
  have hcount : 0 < s.nodes.refCount node := Nat.lt_of_lt_of_le hlisted (h node)
  unfold Nodes.refCount at hcount
  cases hn : s.nodes node
  case none => simp [hn] at hcount
  case some => rfl

namespace Inv

theorem initial : Inv initial :=
  fun _ => Nat.zero_le _

section

variable (h : Inv s)

include h

theorem put_addNodes : Inv ((s.put pid replicas).addNodes replicas) := by
  intro n
  have hdel : (s.del pid).listed n ≤ s.nodes.refCount n := listed_del_le.trans (h n)
  change (s.put pid replicas).listed n ≤ _
  rw [listed_put, refCount_addNodes, Nat.add_comm]
  exact Nat.add_le_add_right hdel _

theorem addNodes : Inv (s.addNodes ids) := by
  intro n
  rw [refCount_addNodes]
  exact Nat.le_add_right_of_le (h n)

theorem release (hn : s'.nodes = (s.deleteNodes [node]).nodes)
    (hle : ∀ n, s'.listed n ≤ s.listed n) (hs : s'.listed node < s.listed node ∨ Spare s node) : Inv s' := by
  intro n
  rw [hn, refCount_deleteNodes]
  by_cases he : n = node
  · subst he
    rw [List.count_singleton_self]
    have hi := h n
    have hl := hle n
    unfold Spare at hs
    omega
  · rw [List.count_singleton, if_neg (by simpa using Ne.symm he), Nat.sub_zero]
    exact (hle n).trans (h n)

section

variable (hp : s.partitions.lookup pid = some replicas)

include hp

theorem deletePartition : Inv ((s.deleteNodes replicas).del pid) := by
  intro n
  have hi := h n
  rw [listed_del hp] at hi
  change (s.del pid).listed n ≤ (s.deleteNodes replicas).nodes.refCount n
  rw [refCount_deleteNodes]
  omega

theorem deleteReplica (hs : self ∈ replicas ∨ Spare s self) : Inv ((s.del pid).deleteNodes [self]) := by
  refine h.release rfl (fun n => listed_del_le) (hs.imp_left fun hmem => ?_)
  change (s.del pid).listed self < s.listed self
  rw [listed_del hp]
  exact Nat.lt_add_of_pos_left (List.count_pos_iff.mpr hmem)

theorem applyRemove (hs : node ∈ replicas ∨ Spare s node) :
    Inv ((s.deleteNodes [node]).put pid (replicas.filter (· ≠ node))) := by
  have hlisted : ∀ n, ((s.deleteNodes [node]).put pid (replicas.filter (· ≠ node))).listed n =
      (replicas.filter (· ≠ node)).count n + (s.del pid).listed n := fun n => listed_put
  refine h.release rfl (fun n => ?_) (hs.imp_left fun hmem => ?_)
  · rw [hlisted, listed_del hp]
    exact Nat.add_le_add_right (List.filter_sublist.count_le n) _
  · rw [hlisted, listed_del hp, List.count_eq_zero_of_not_mem (by simp)]
    exact Nat.add_lt_add_right (List.count_pos_iff.mpr hmem) _

theorem applyAdd : Inv ((s.addNodes [node]).put pid (if node ∈ replicas then replicas else replicas ++ [node])) := by
  intro n
  have hi := h n
  rw [listed_del hp] at hi
  have hcount : (if node ∈ replicas then replicas else replicas ++ [node]).count n ≤
      replicas.count n + [node].count n := by
    split
    · exact Nat.le_add_right ..
    · rw [List.count_append]
  have hlisted : ((s.addNodes [node]).put pid (if node ∈ replicas then replicas else replicas ++ [node])).listed n =
      (if node ∈ replicas then replicas else replicas ++ [node]).count n + (s.del pid).listed n := listed_put
  change _ ≤ (s.addNodes [node]).nodes.refCount n
  rw [hlisted, refCount_addNodes]
  omega

end

theorem update {count : Nat} (hcount : s.nodes.refCount node ≤ count) :
    Inv { s with nodes := Function.update s.nodes node (some count), updating := none } := by
  intro n
  change s.listed n ≤ Nodes.refCount (Function.update s.nodes node (some count)) n
  by_cases he : n = node
  · subst he
    rw [Nodes.refCount, Function.update_self]
    exact (h n).trans hcount
  · rw [Nodes.refCount, Function.update_of_ne he]
    exact h n

theorem step (ha : Careful self s a) (hs : step self s a = some s') : Inv s' := by
  cases a <;> simp only [RaftResolver.step] at hs
  case createPartition pid replicas found =>
    obtain ⟨hnone, hfound⟩ := ha
    simp only [hnone, Option.isSome_none, Bool.false_eq_true, if_false, List.takeWhile_eq_self_iff.mpr hfound] at hs
    cases hs
    exact h.put_addNodes
  case loadPartition pid replicas started =>
    cases hs
    split
    · exact h.put_addNodes
    · exact h.addNodes
  case deletePartition pid =>
    cases hp : s.partitions.lookup pid <;> simp only [hp] at hs
    case none =>
      cases hs
      exact h
    case some replicas =>
      cases hs
      exact h.deletePartition hp
  case deleteReplica pid =>
    cases hp : s.partitions.lookup pid <;> simp only [hp] at hs
    case none =>
      cases hs
      exact h
    case some replicas =>
      cases hs
      exact h.deleteReplica hp (ha replicas hp)
  case changeMember pid method node =>
    obtain ⟨-, hs⟩ := Option.ite_none_right_eq_some.mp hs
    cases method <;> cases hs
    · exact h.addNodes
    · exact h
  case applyMemberChange pid method node own =>
    cases hp : s.partitions.lookup pid <;> simp only [hp, reduceCtorEq] at hs
    case some replicas =>
      cases method
      case add =>
        cases hs
        exact h.applyAdd hp
      case remove =>
        have hnode := ha replicas hp
        dsimp only at hs
        split at hs
        case isTrue hnil =>
          cases hs
          exact h.release rfl (fun _ => le_rfl) (.inr (hnode.resolve_left (by simp [hnil])))
        case isFalse =>
          have h' := h.applyRemove hp hnode
          cases hs
          split
          · exact h'
          · exact h'
  case changedMember node =>
    obtain ⟨-, hs⟩ := Option.ite_none_right_eq_some.mp hs
    cases hs
    exact h.release rfl (fun _ => le_rfl) (.inr ha)
  case updateNode node =>
    obtain ⟨-, hs⟩ := Option.ite_none_left_eq_some.mp hs
    cases hn : s.nodes node <;> simp only [hn] at hs <;> cases hs
    case none => exact h.addNodes
    case some count => exact h
  case updatedNode =>
    cases hu : s.updating <;> simp only [hu, reduceCtorEq] at hs
    case some e =>
      obtain ⟨node, count⟩ := e
      cases hs
      exact h.update (ha node count hu)

end

end Inv

-- Whatever the partitions and the order of the requests and the events on them.
theorem resolvable_of_careful (self : Nat) (s : RaftResolver)
    (h : Machine.Reaches (step self) (Careful self) initial s) : Resolvable s :=
  (h.invariant Inv.step Inv.initial).resolvable

-- The leader of a partition adds a node, whose address is updated, and removes it again.
theorem resolvable_added : ∃ s,
    Machine.Reaches (step 1) (Careful 1) initial s ∧ Resolvable s ∧ s.partitions.lookup 10 = some [1] := by
  have h₁ : Machine.Reaches (step 1) (Careful 1) initial _ :=
    Machine.Reaches.refl.snoc (.createPartition 10 [1] fun _ => true) ⟨rfl, fun _ _ => rfl⟩ rfl
  have h₂ := h₁.snoc (.changeMember 10 .add 2) trivial rfl
  have h₃ := h₂.snoc (.applyMemberChange 10 .add 2 true) trivial rfl
  have h₄ := h₃.snoc (.updateNode 2) trivial rfl
  have h₅ := h₄.snoc .updatedNode (by rintro _ _ ⟨⟩; exact le_rfl) rfl
  have h₆ := h₅.snoc (.applyMemberChange 10 .remove 2 true)
    (by rintro _ ⟨⟩; exact .inl (by decide)) rfl
  have h₇ := h₆.snoc (.changedMember 2) (by change _ < _; decide) rfl
  exact ⟨_, h₇, resolvable_of_careful 1 _ h₇, rfl⟩

-- The leader of two partitions on the same nodes removes a node from one of them.
theorem other_partition_unresolved : ∃ s,
    Machine.Reaches (step 1) (fun _ _ => True) initial s ∧ ¬ Resolvable s := by
  have h : ([.createPartition 10 [1, 2] fun _ => true, .createPartition 11 [1, 2] fun _ => true,
      .changeMember 10 .remove 2, .applyMemberChange 10 .remove 2 true, .changedMember 2].foldlM
      (step 1) initial).isSome := by
    decide
  obtain ⟨s, hs⟩ := Option.isSome_iff_exists.mp h
  refine ⟨s, Machine.reaches_of_foldlM hs, fun hr => ?_⟩
  cases hs
  exact absurd (hr 11 [1, 2] rfl 2 (by decide)) (by decide)

end RaftResolver
