import SymbolicMemory.Expr.Basic

/-! # Slices and their concatenation

Taking bits out of an expression looks through earlier slices and concatenations,
and putting adjacent slices of one source back together gives a slice of that
source again. So a value that was cut into bytes and reassembled is the value
itself. The two operations call each other; every call works on a proper part of
the expression that was first given.
-/

namespace SymbolicMemory

namespace Expr

/-- The number of nodes. -/
def nodes : Expr → Nat
  | const .. => 1
  | var .. => 1
  | concat _ msb lsb => msb.nodes + lsb.nodes + 1
  | extract _ source _ _ => source.nodes + 1
  | not _ source => source.nodes + 1
  | zext _ source _ => source.nodes + 1
  | binary _ _ lhs rhs => lhs.nodes + rhs.nodes + 1

/-- The number of nodes below a slice, and zero for any other node. -/
def sourceNodes : Expr → Nat
  | extract _ source _ _ => source.nodes
  | _ => 0

theorem sourceNodes_le_nodes (e : Expr) : e.sourceNodes ≤ e.nodes := by
  cases e <;> simp [sourceNodes, nodes]

/-- How two expressions are put side by side. -/
inductive Joined where
  /-- Two constants make one. -/
  | word (w : Word)
  /-- Two adjacent slices of one source make one. -/
  | slice (source : Expr) (offset width : UInt64)
  /-- Anything else stays a pair. -/
  | pair

/-- The form that the concatenation of two expressions takes. The sources of two slices
    are one only if they are the same node. -/
def join (msb lsb : Expr) : Except Fault Joined :=
  if 64 < msb.width + lsb.width then .error (.concatWidth msb.width lsb.width)
  else match msb, lsb with
    | const _ a, const _ b => (a.concat b).map .word
    | extract _ source offset width, extract _ source' offset' width' =>
      if source = source' ∧ offset' + width' = offset then .ok (.slice source offset' (width + width'))
      else .ok .pair
    | _, _ => .ok .pair

theorem nodes_of_join {msb lsb source : Expr} {offset width : UInt64}
    (h : join msb lsb = .ok (.slice source offset width)) : source.nodes = msb.sourceNodes := by
  unfold join at h
  split at h
  · cases h
  · split at h
    · rename_i a _ b _
      cases hc : a.concat b <;> simp [hc, Except.map] at h
    · split at h
      · injection h with h; injection h with h; subst h; rfl
      · injection h with h; cases h
    · injection h with h; cases h

/-- A slice together with the fact that what lies below it is no larger than the expression
    it was taken from. -/
def sliceBounded (e : Expr) (offset width : UInt64) :
    Except Fault { r : Expr // r.sourceNodes ≤ e.nodes } :=
  if width = 0 then .error .emptyExtract
  else if e.width < offset + width then .error (.extractRange offset width e.width)
  else if width = e.width then .ok ⟨e, e.sourceNodes_le_nodes⟩
  else match e with
    | const _ w => (w.extract offset width).map fun w => ⟨const none w, by simp [sourceNodes]⟩
    | extract _ source offset' _ =>
      (sliceBounded source (offset' + offset) width).map fun r =>
        ⟨r.val, by have := r.property; simp only [nodes]; omega⟩
    | concat _ msb lsb =>
      if lsb.width ≤ offset then
        (sliceBounded msb (offset - lsb.width) width).map fun r =>
          ⟨r.val, by have := r.property; simp only [nodes]; omega⟩
      else if offset + width ≤ lsb.width then
        (sliceBounded lsb offset width).map fun r =>
          ⟨r.val, by have := r.property; simp only [nodes]; omega⟩
      else
        match sliceBounded msb 0 (offset + width - lsb.width) with
        | .error fault => .error fault
        | .ok high =>
          match sliceBounded lsb offset (lsb.width - offset) with
          | .error fault => .error fault
          | .ok low =>
            match h : join high.val low.val with
            | .error fault => .error fault
            | .ok (.word w) => .ok ⟨const none w, by simp [sourceNodes]⟩
            | .ok (.slice source offset' width') =>
              (sliceBounded source offset' width').map fun r =>
                ⟨r.val, by
                  have := r.property; have := high.property; have := nodes_of_join h
                  simp only [nodes]; omega⟩
            | .ok .pair => .ok ⟨concat none high.val low.val, by simp [sourceNodes]⟩
    | e => .ok ⟨extract none e offset width, by simp [sourceNodes]⟩
termination_by e.nodes
decreasing_by
  · simp only [nodes]; omega
  · simp only [nodes]; omega
  · simp only [nodes]; omega
  · simp only [nodes]; omega
  · simp only [nodes]; omega
  · have := high.property; have := nodes_of_join h
    simp only [nodes]; omega

/-- `width` bits of `e` from bit `offset` on, as a new or an existing node. -/
def slice (e : Expr) (offset width : UInt64) : Except Fault Expr :=
  (sliceBounded e offset width).map Subtype.val

/-- The bits of `msb` above those of `lsb`. -/
def append (msb lsb : Expr) : Except Fault Expr :=
  match join msb lsb with
  | .error fault => .error fault
  | .ok (.word w) => .ok (const none w)
  | .ok (.slice source offset width) => slice source offset width
  | .ok .pair => .ok (concat none msb lsb)

/-- The defining equation of `slice`: whole expressions are returned as they are, constants
    are cut, slices and concatenations are looked through. -/
theorem slice_eq (e : Expr) (offset width : UInt64) :
    slice e offset width =
      if width = 0 then .error .emptyExtract
      else if e.width < offset + width then .error (.extractRange offset width e.width)
      else if width = e.width then .ok e
      else match e with
        | const _ w => (w.extract offset width).map (const none)
        | extract _ source offset' _ => slice source (offset' + offset) width
        | concat _ msb lsb =>
          if lsb.width ≤ offset then slice msb (offset - lsb.width) width
          else if offset + width ≤ lsb.width then slice lsb offset width
          else do
            let high ← slice msb 0 (offset + width - lsb.width)
            let low ← slice lsb offset (lsb.width - offset)
            append high low
        | e => .ok (extract none e offset width) := by
  unfold slice
  rw [sliceBounded.eq_def]
  by_cases hz : width = 0
  · simp [hz, Except.map]
  by_cases hr : e.width < offset + width
  · simp [hz, hr, Except.map]
  by_cases hw : width = e.width
  · rw [if_neg hz, if_neg hz, if_neg hr, if_neg hr, if_pos hw, if_pos hw]; rfl
  simp only [hz, hr, hw, if_false]
  cases e with
  | const tag w => simp only; cases w.extract offset width <;> rfl
  | extract tag source offset' width' =>
    simp only; cases sliceBounded source (offset' + offset) width <;> rfl
  | concat tag msb lsb =>
    simp only
    split
    · cases sliceBounded msb (offset - lsb.width) width <;> rfl
    split
    · cases sliceBounded lsb offset width <;> rfl
    cases sliceBounded msb 0 (offset + width - lsb.width) with
    | error fault => rfl
    | ok high =>
      cases sliceBounded lsb offset (lsb.width - offset) with
      | error fault => rfl
      | ok low =>
        dsimp only
        change Except.map Subtype.val _ = append high.val low.val
        split <;> rename_i h <;> simp only [append, h]
        · rfl
        · rfl
        · rename_i source offset' width'
          simp only [slice]
          cases sliceBounded source offset' width' <;> rfl
        · rfl
  | var | not | zext | binary => rfl

end Expr

end SymbolicMemory
