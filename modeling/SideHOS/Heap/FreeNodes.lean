import SideHOS.Machine.Extent
import Mathlib.Data.List.TakeWhile

/-!
# Free nodes and live blocks

A free node occupies its header of 16 bytes and `length` bytes after it.  A live block carved from
a page occupies the 16 bytes where its node was, its size word, and `word` bytes from `pointer`
on.  `kfree` turns a block into a node of length `word`, which is 8 bytes shorter than the block;
its merge test asks for exactly this gap, so that no block fits between two nodes that it merges.
-/

namespace SideHOS.Heap

open Machine

@[ext]
structure Node where
  address : ℕ
  length : ℕ
  deriving DecidableEq

/-- A block that `kmalloc` answered: its address, the requested size, and its size word. -/
@[ext]
structure Block where
  pointer : ℕ
  size : ℕ
  word : ℕ
  deriving DecidableEq

def Node.extent (node : Node) : Extent := ⟨node.address, 16 + node.length⟩

def Block.payload (block : Block) : Extent := ⟨block.pointer, block.size⟩

def Block.header (block : Block) : Extent := ⟨block.pointer - 8, 8⟩

/-- What a block takes up in its page. -/
def Block.slot (block : Block) : Extent := ⟨block.pointer - 24, 24 + block.word⟩

/-- A node followed by 8 bytes and another node. -/
def Mergeable (first second : Node) : Prop := first.extent.stop + 8 = second.address

def Node.merge (first second : Node) : Node :=
  { first with length := first.length + 16 + second.length }

instance (first second : Node) : Decidable (Mergeable first second) :=
  inferInstanceAs (Decidable (_ = _))

def nodeBytes (nodes : List Node) : ℕ := (nodes.map fun node ↦ 16 + node.length).sum

/-- The largest length on a list, or `maximum` if none is larger. -/
def maxLength (maximum : ℕ) : List Node → ℕ
  | [] => maximum
  | node :: nodes =>
      maxLength (if node.length > maximum then node.length else maximum) nodes

/-- The nodes follow one another between `low` and `high`. -/
structure Ordered (low high : ℕ) (nodes : List Node) : Prop where
  pairwise : nodes.Pairwise fun first second ↦ first.extent.stop ≤ second.address
  within : ∀ node ∈ nodes, low ≤ node.address ∧ node.extent.stop ≤ high

theorem nodeBytes_append (front back : List Node) :
    nodeBytes (front ++ back) = nodeBytes front + nodeBytes back := by
  simp [nodeBytes]

theorem nodeBytes_cons (node : Node) (nodes : List Node) :
    nodeBytes (node :: nodes) = 16 + node.length + nodeBytes nodes := by
  simp [nodeBytes]

theorem maxLength_mem (maximum : ℕ) (nodes : List Node) :
    maxLength maximum nodes = maximum ∨ ∃ node ∈ nodes, maxLength maximum nodes = node.length := by
  induction nodes generalizing maximum with
  | nil => exact Or.inl rfl
  | cons node nodes ih =>
    rcases ih (if node.length > maximum then node.length else maximum) with h | ⟨other, hother, h⟩
    · by_cases hlarger : node.length > maximum
      · rw [if_pos hlarger] at h
        exact Or.inr ⟨node, List.mem_cons_self, by rw [maxLength, if_pos hlarger, h]⟩
      · rw [if_neg hlarger] at h
        exact Or.inl (by rw [maxLength, if_neg hlarger, h])
    · exact Or.inr ⟨other, List.mem_cons_of_mem _ hother, h⟩

/-! ## Merging -/

inductive MergeStep : List Node → List Node → Prop
  | intro (front : List Node) (first second : Node) (back : List Node)
      (hmergeable : Mergeable first second) :
      MergeStep (front ++ first :: second :: back) (front ++ first.merge second :: back)

abbrev Merges : List Node → List Node → Prop := Relation.ReflTransGen MergeStep

/-- The merge loop of `kfree` from `node` on. -/
def mergeFrom (node : Node) : List Node → List Node
  | [] => [node]
  | next :: rest =>
      if Mergeable node next then mergeFrom (node.merge next) rest
      else node :: mergeFrom next rest

/-- The list that `kfree` leaves after inserting `node` between `front` and `back`: it merges from
the node before the new one on, or from the new one if it is the first. -/
def coalesce (node : Node) (back : List Node) : List Node → List Node
  | [] => mergeFrom node back
  | [prev] => mergeFrom prev (node :: back)
  | first :: second :: rest => first :: coalesce node back (second :: rest)

theorem mergeFrom_merges (front : List Node) (node : Node) (nodes : List Node) :
    Merges (front ++ node :: nodes) (front ++ mergeFrom node nodes) := by
  induction nodes generalizing front node with
  | nil => exact Relation.ReflTransGen.refl
  | cons next rest ih =>
    rw [mergeFrom]
    split_ifs with hmergeable
    · exact Relation.ReflTransGen.head (MergeStep.intro front node next rest hmergeable)
        (ih front _)
    · simpa only [List.append_assoc, List.singleton_append] using ih (front ++ [node]) next

theorem coalesce_concat (node : Node) (back front : List Node) (prev : Node) :
    coalesce node back (front ++ [prev]) = front ++ mergeFrom prev (node :: back) := by
  induction front with
  | nil => rfl
  | cons first rest ih =>
    cases rest with
    | nil => rfl
    | cons second rest =>
      simp only [List.cons_append] at ih ⊢
      rw [coalesce, ih]

theorem coalesce_merges (node : Node) (back front : List Node) :
    Merges (front ++ node :: back) (coalesce node back front) := by
  rcases List.eq_nil_or_concat front with rfl | ⟨earlier, prev, rfl⟩
  · exact mergeFrom_merges [] node back
  · rw [List.concat_eq_append, coalesce_concat]
    simpa only [List.append_assoc, List.singleton_append] using
      mergeFrom_merges earlier prev (node :: back)

section Merge

variable {low high bound : ℕ} {slot : Extent} {first second : Node} {nodes merged : List Node}

theorem Mergeable.merge_stop (h : Mergeable first second) :
    (first.merge second).extent.stop + 8 = second.extent.stop := by
  simp only [Mergeable, Node.merge, Node.extent, Extent.stop] at h ⊢
  omega

/-- What is wider than the gap and apart from both nodes is apart from the merged node. -/
theorem Mergeable.apart (h : Mergeable first second) (hwide : 8 < slot.length)
    (hfirst : slot.Apart first.extent) (hsecond : slot.Apart second.extent) :
    slot.Apart (first.merge second).extent := by
  simp only [Mergeable, Node.merge, Node.extent, Extent.stop, Extent.Apart] at *
  omega

theorem Ordered.mergeStep (hordered : Ordered low high nodes) (h : MergeStep nodes merged) :
    Ordered low high merged := by
  obtain ⟨front, first, second, back, hmergeable⟩ := h
  have hstop := hmergeable.merge_stop
  obtain ⟨hpairwise, hwithin⟩ := hordered
  simp only [List.pairwise_append, List.pairwise_cons, List.mem_cons, forall_eq_or_imp,
    List.mem_append] at hpairwise hwithin
  obtain ⟨hfront, ⟨⟨-, hfirst⟩, hsecond, hback⟩, hacross⟩ := hpairwise
  constructor
  · simp only [List.pairwise_append, List.pairwise_cons, List.mem_cons, forall_eq_or_imp]
    refine ⟨hfront, ⟨fun node hnode ↦ ?_, hback⟩, fun node hnode ↦ ⟨(hacross node hnode).1, ?_⟩⟩
    · exact le_trans (by omega) (hsecond node hnode)
    · exact (hacross node hnode).2.2
  · intro node hnode
    rcases List.mem_append.mp hnode with hnode | hnode
    · exact hwithin node (Or.inl hnode)
    · rcases List.mem_cons.mp hnode with rfl | hnode
      · exact ⟨(hwithin first (Or.inr (Or.inl rfl))).1,
          le_trans (by omega) (hwithin second (Or.inr (Or.inr (Or.inl rfl)))).2⟩
      · exact hwithin node (Or.inr (Or.inr (Or.inr hnode)))

theorem apart_mergeStep (hwide : 8 < slot.length) (hapart : ∀ node ∈ nodes, slot.Apart node.extent)
    (h : MergeStep nodes merged) : ∀ node ∈ merged, slot.Apart node.extent := by
  obtain ⟨front, first, second, back, hmergeable⟩ := h
  simp only [List.mem_append, List.mem_cons] at hapart ⊢
  rintro node (hnode | rfl | hnode)
  · exact hapart node (Or.inl hnode)
  · exact hmergeable.apart hwide (hapart first (by simp)) (hapart second (by simp))
  · exact hapart node (Or.inr (Or.inr (Or.inr hnode)))

theorem nodeBytes_mergeStep (h : MergeStep nodes merged) : nodeBytes merged = nodeBytes nodes := by
  obtain ⟨front, first, second, back, hmergeable⟩ := h
  simp only [nodeBytes_append, nodeBytes_cons, Node.merge]
  ring

theorem exists_length_mergeStep (hnode : ∃ node ∈ nodes, bound ≤ node.length)
    (h : MergeStep nodes merged) : ∃ node ∈ merged, bound ≤ node.length := by
  obtain ⟨front, first, second, back, hmergeable⟩ := h
  obtain ⟨node, hnode, hbound⟩ := hnode
  simp only [List.mem_append, List.mem_cons] at hnode ⊢
  rcases hnode with hnode | rfl | rfl | hnode
  · exact ⟨node, Or.inl hnode, hbound⟩
  · exact ⟨_, Or.inr (Or.inl rfl), hbound.trans (by simp only [Node.merge]; omega)⟩
  · exact ⟨_, Or.inr (Or.inl rfl), hbound.trans (by simp only [Node.merge]; omega)⟩
  · exact ⟨node, Or.inr (Or.inr hnode), hbound⟩

/-- A merged node starts where its first part started. -/
theorem address_mergeStep (P : ℕ → Prop) (hnodes : ∀ node ∈ nodes, P node.address)
    (h : MergeStep nodes merged) : ∀ node ∈ merged, P node.address := by
  obtain ⟨front, first, second, back, hmergeable⟩ := h
  simp only [List.mem_append, List.mem_cons] at hnodes ⊢
  rintro node (hnode | rfl | hnode)
  · exact hnodes node (Or.inl hnode)
  · exact hnodes first (by simp)
  · exact hnodes node (Or.inr (Or.inr (Or.inr hnode)))

/-- What one merge keeps, any number of merges keeps. -/
theorem Merges.preserve (P : List Node → Prop)
    (hstep : ∀ before after, P before → MergeStep before after → P after) (hnodes : P nodes)
    (h : Merges nodes merged) : P merged := by
  induction h with
  | refl => exact hnodes
  | tail _ hlast ih => exact hstep _ _ ih hlast

theorem Ordered.merges (hordered : Ordered low high nodes) (h : Merges nodes merged) :
    Ordered low high merged :=
  h.preserve (Ordered low high) (fun _ _ hbefore hstep ↦ hbefore.mergeStep hstep) hordered

theorem apart_merges (hwide : 8 < slot.length) (hapart : ∀ node ∈ nodes, slot.Apart node.extent)
    (h : Merges nodes merged) : ∀ node ∈ merged, slot.Apart node.extent :=
  h.preserve (fun list ↦ ∀ node ∈ list, slot.Apart node.extent)
    (fun _ _ hbefore hstep ↦ apart_mergeStep hwide hbefore hstep) hapart

theorem address_merges (P : ℕ → Prop) (hnodes : ∀ node ∈ nodes, P node.address)
    (h : Merges nodes merged) : ∀ node ∈ merged, P node.address :=
  h.preserve (fun list ↦ ∀ node ∈ list, P node.address)
    (fun _ _ hbefore hstep ↦ address_mergeStep P hbefore hstep) hnodes

theorem nodeBytes_merges (h : Merges nodes merged) : nodeBytes merged = nodeBytes nodes :=
  h.preserve (fun list ↦ nodeBytes list = nodeBytes nodes)
    (fun _ _ hbefore hstep ↦ (nodeBytes_mergeStep hstep).trans hbefore) rfl

theorem exists_length_merges (hnode : ∃ node ∈ nodes, bound ≤ node.length)
    (h : Merges nodes merged) : ∃ node ∈ merged, bound ≤ node.length :=
  h.preserve (fun list ↦ ∃ node ∈ list, bound ≤ node.length)
    (fun _ _ hbefore hstep ↦ exists_length_mergeStep hbefore hstep) hnode

end Merge

/-! ## Carving a block out of a node -/

section Carve

variable {low high size : ℕ} {node inner : Node} {front back : List Node}

/-- What is left of a node's length after `size` bytes and a size word. -/
def remaining (node : Node) (size : ℕ) : ℕ := node.length - (size + 8)

/-- The block `kmalloc` carves out of a node: all of it if what is left cannot hold a node. -/
def carvedBlock (node : Node) (size : ℕ) : Block where
  pointer := node.address + 24
  size := size
  word := if remaining node size < 16 then size + remaining node size else size

/-- What `kmalloc` puts into the node's place on the list. -/
def carvedRest (node : Node) (size : ℕ) : List Node :=
  if remaining node size < 16 then []
  else [⟨node.address + 24 + size, remaining node size - 16⟩]

theorem carvedBlock_word_le (hfit : size + 8 ≤ node.length) :
    (carvedBlock node size).word + 8 ≤ node.length := by
  unfold carvedBlock remaining
  dsimp only
  split_ifs <;> omega

theorem carved_within (hfit : size + 8 ≤ node.length) :
    (carvedBlock node size).slot.Within node.extent := by
  have hword := carvedBlock_word_le hfit
  have hpointer : (carvedBlock node size).pointer = node.address + 24 := rfl
  simp only [Block.slot, Node.extent, Extent.Within, Extent.stop]
  omega

theorem carvedRest_within (hfit : size + 8 ≤ node.length) (hinner : inner ∈ carvedRest node size) :
    inner.extent.Within node.extent ∧ (carvedBlock node size).slot.Apart inner.extent := by
  unfold carvedRest at hinner
  split_ifs at hinner with hsplit
  · cases hinner
  · obtain rfl := List.mem_singleton.mp hinner
    simp only [carvedBlock, if_neg hsplit, Block.slot, Node.extent, Extent.Within, Extent.Apart,
      Extent.stop]
    simp only [remaining] at hsplit ⊢
    omega

theorem carved_bytes (hfit : size + 8 ≤ node.length) :
    nodeBytes (carvedRest node size) + (24 + (carvedBlock node size).word) = 16 + node.length := by
  unfold carvedRest carvedBlock
  dsimp only
  split_ifs with hsplit <;> simp only [remaining, nodeBytes, List.map_nil, List.map_cons,
    List.sum_nil, List.sum_cons] at hsplit ⊢ <;> omega

theorem size_le_carved : (carvedBlock node size).size ≤ (carvedBlock node size).word := by
  unfold carvedBlock
  dsimp only
  split_ifs <;> omega

/-- Replacing a node by nodes within it keeps the list in order. -/
theorem Ordered.carve (hordered : Ordered low high (front ++ node :: back))
    (hfit : size + 8 ≤ node.length) :
    Ordered low high (front ++ carvedRest node size ++ back) := by
  obtain ⟨hpairwise, hwithin⟩ := hordered
  rw [List.pairwise_append, List.pairwise_cons] at hpairwise
  obtain ⟨hfront, ⟨hnode, hback⟩, hacross⟩ := hpairwise
  have hrest (inner : Node) (hinner : inner ∈ carvedRest node size) :=
    (carvedRest_within hfit hinner).1
  have hsingle : (carvedRest node size).Pairwise
      fun first second ↦ first.extent.stop ≤ second.address := by
    unfold carvedRest
    split_ifs <;> simp
  constructor
  · rw [List.append_assoc, List.pairwise_append, List.pairwise_append]
    refine ⟨hfront, ⟨hsingle, hback, fun inner hinner later hlater ↦ ?_⟩,
      fun earlier hearlier inner hinner ↦ ?_⟩
    · exact (hrest inner hinner).2.trans (hnode later hlater)
    · rcases List.mem_append.mp hinner with hinner | hinner
      · exact (hacross earlier hearlier node List.mem_cons_self).trans (hrest inner hinner).1
      · exact hacross earlier hearlier inner (List.mem_cons_of_mem _ hinner)
  · have hbounds := hwithin node (by simp)
    intro inner hinner
    rw [List.mem_append, List.mem_append] at hinner
    rcases hinner with (hinner | hinner) | hinner
    · exact hwithin inner (by simp [hinner])
    · exact ⟨hbounds.1.trans (hrest inner hinner).1, (hrest inner hinner).2.trans hbounds.2⟩
    · exact hwithin inner (by simp [hinner])

end Carve

/-! ## Freeing a block -/

section Release

variable {low high : ℕ} {block : Block} {nodes : List Node}

/-- The node that `kfree` makes of a block. -/
def freedNode (block : Block) : Node := ⟨block.pointer - 24, block.word⟩

def nodesBefore (block : Block) (nodes : List Node) : List Node :=
  nodes.takeWhile fun node ↦ decide (node.address < (freedNode block).address)

def nodesAfter (block : Block) (nodes : List Node) : List Node :=
  nodes.dropWhile fun node ↦ decide (node.address < (freedNode block).address)

theorem before_append_after (block : Block) (nodes : List Node) :
    nodesBefore block nodes ++ nodesAfter block nodes = nodes := List.takeWhile_append_dropWhile

theorem freedNode_within (block : Block) : (freedNode block).extent.Within block.slot := by
  simp only [freedNode, Node.extent, Block.slot, Extent.Within, Extent.stop]
  omega

/-- Inserting the freed block keeps the list in order. -/
theorem Ordered.insert (hordered : Ordered low high nodes)
    (hapart : ∀ node ∈ nodes, block.slot.Apart node.extent)
    (hwithin : low ≤ block.slot.start ∧ block.slot.stop ≤ high) :
    Ordered low high (nodesBefore block nodes ++ freedNode block :: nodesAfter block nodes) := by
  obtain ⟨hpairwise, hbounds⟩ := hordered
  have hsplit := before_append_after block nodes
  rw [← hsplit, List.pairwise_append] at hpairwise
  obtain ⟨hbefore, hafter, hacross⟩ := hpairwise
  have hmem (node : Node)
      (hnode : node ∈ nodesBefore block nodes ∨ node ∈ nodesAfter block nodes) : node ∈ nodes := by
    rw [← hsplit]
    exact List.mem_append.mpr hnode
  have hlow (node : Node) (hnode : node ∈ nodesBefore block nodes) :
      node.extent.stop ≤ (freedNode block).address := by
    have hlt := of_decide_eq_true (List.mem_takeWhile_imp
      (p := fun other : Node ↦ decide (other.address < (freedNode block).address)) hnode)
    have hside := hapart node (hmem node (Or.inl hnode))
    simp only [freedNode, Block.slot, Node.extent, Extent.Apart, Extent.stop] at hlt hside ⊢
    omega
  have hhigh (node : Node) (hnode : node ∈ nodesAfter block nodes) :
      (freedNode block).extent.stop ≤ node.address := by
    have hge : (freedNode block).address ≤ node.address := by
      cases hlist : nodesAfter block nodes with
      | nil =>
        rw [hlist] at hnode
        cases hnode
      | cons first rest =>
        have hfirst := List.head?_dropWhile_not
          (fun node ↦ decide (node.address < (freedNode block).address)) nodes
        rw [show nodes.dropWhile _ = first :: rest from hlist] at hfirst
        have hnotlt : ¬ first.address < (freedNode block).address := of_decide_eq_false hfirst
        rw [hlist] at hnode hafter
        rcases List.mem_cons.mp hnode with rfl | hlater
        · exact not_lt.mp hnotlt
        · have hstop := (List.pairwise_cons.mp hafter).1 node hlater
          simp only [Node.extent, Extent.stop] at hstop
          omega
    have hside := hapart node (hmem node (Or.inr hnode))
    simp only [freedNode, Block.slot, Node.extent, Extent.Apart, Extent.stop] at hge hside ⊢
    omega
  constructor
  · rw [List.pairwise_append, List.pairwise_cons]
    refine ⟨hbefore, ⟨hhigh, hafter⟩, fun earlier hearlier later hlater ↦ ?_⟩
    rcases List.mem_cons.mp hlater with rfl | hlater
    · exact hlow earlier hearlier
    · exact hacross earlier hearlier later hlater
  · intro node hnode
    rw [List.mem_append, List.mem_cons] at hnode
    rcases hnode with hnode | rfl | hnode
    · exact hbounds node (hmem node (Or.inl hnode))
    · exact ⟨hwithin.1.trans (freedNode_within block).1, (freedNode_within block).2.trans hwithin.2⟩
    · exact hbounds node (hmem node (Or.inr hnode))

end Release

end SideHOS.Heap
