import Mathlib.Data.List.Basic

/-! # Walking a tree with a stack

A walk takes the node on the top of a stack, looks at it and puts its children on the stack, up
to a number of nodes. The last child ends up on top, so the walk sees the nodes of a tree from the
right to the left, each before its children: backwards, each after its children and from the left
to the right.
-/

namespace Ferrokey.Collections

inductive Rose (α : Type*) where
  | node (a : α) (kids : List (Rose α))

namespace Rose

variable {α β : Type*}

def root : Rose α → α
  | node a _ => a

def kids : Rose α → List (Rose α)
  | node _ kids => kids

mutual

/-- The nodes of a tree, each after its children. -/
def postorder : Rose α → List α
  | node a kids => postorders kids ++ [a]

def postorders : List (Rose α) → List α
  | [] => []
  | t :: ts => postorder t ++ postorders ts

end

/-- Every node of the tree stands for something whose children are those that its children stand
for. -/
inductive Shown (children : α → List α) (g : β → α) : Rose β → Prop where
  | node {b : β} {kids : List (Rose β)} : children (g b) = kids.map (fun t => g t.root) →
      (∀ t ∈ kids, Shown children g t) → Shown children g (node b kids)

theorem postorders_eq (ts : List (Rose α)) : postorders ts = ts.flatMap postorder := by
  induction ts with
  | nil => rfl
  | cons t ts ih => rw [postorders, ih, List.flatMap_cons]

theorem reverse_postorder (t : Rose α) :
    t.postorder.reverse = t.root :: t.kids.reverse.flatMap fun t => t.postorder.reverse := by
  obtain ⟨a, kids⟩ := t
  rw [postorder, List.reverse_append, postorders_eq, List.reverse_flatMap]
  rfl

end Rose

variable {α β : Type*}

/-- The nodes that a walk sees; the stack has its top first. -/
def walk (children : α → List α) : ℕ → List α → List α
  | 0, _ => []
  | _, [] => []
  | n + 1, a :: stack => a :: walk children n ((children a).reverse ++ stack)

/-- A walk from the roots of some trees sees the first of their nodes, backwards. -/
theorem walk_roots {children : α → List α} {g : β → α} {ts : List (Rose β)} (n : ℕ)
    (h : ∀ t ∈ ts, t.Shown children g) : walk children n (ts.map fun t => g t.root) =
      ((ts.flatMap fun t => t.postorder.reverse).take n).map g := by
  induction n generalizing ts with
  | zero => simp [walk]
  | succ n ih =>
    cases ts with
    | nil => rfl
    | cons t ts =>
      obtain ⟨ht, hts⟩ := List.forall_mem_cons.mp h
      cases ht with
      | @node b kids hkids hshown =>
        have hall : ∀ t ∈ kids.reverse ++ ts, t.Shown children g := by
          intro t hm
          rcases List.mem_append.mp hm with hm | hm
          · exact hshown t (List.mem_reverse.mp hm)
          · exact hts t hm
        have hstack : (children (g b)).reverse ++ ts.map (fun t => g t.root) =
            (kids.reverse ++ ts).map fun t => g t.root := by
          rw [hkids, List.map_append, List.map_reverse]
        rw [List.map_cons, Rose.root, walk, hstack, ih hall, List.flatMap_cons,
          Rose.reverse_postorder, List.flatMap_append]
        rfl

end Ferrokey.Collections
