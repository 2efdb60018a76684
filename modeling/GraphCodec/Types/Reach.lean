/-!
# Reachable elements

`reach next unseen pending` goes through the elements of a finite domain that can be reached from
some pending ones.  Every element that is found leaves the domain, so cycles end.
-/

namespace GraphCodec

/-- The elements of a domain that are pending or can be reached from pending ones, in the order in
which they are found. -/
def reach {α : Type} [DecidableEq α] (next : α → List α) (unseen pending : List α) : List α :=
  match pending with
  | [] => []
  | a :: rest =>
    if a ∈ unseen then a :: reach next (unseen.erase a) (next a ++ rest)
    else reach next unseen rest
termination_by (unseen.length, pending.length)
decreasing_by
  · rename_i h
    have := List.length_pos_of_mem h
    have := List.length_erase_of_mem h
    apply Prod.Lex.left
    omega
  · apply Prod.Lex.right
    simp

end GraphCodec
