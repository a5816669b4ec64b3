import SymbolicMemory.Proofs.Slices

/-! # How slices and concatenations come about

Cutting and joining call each other until they reach a constant, a node that is taken whole, or a
node that no slice looks into. The ways in which this goes are listed once, so that whatever holds
of all slices and concatenations is shown way by way. Nothing is asked of the expressions that are
cut: they may be put together by hand and have no meaning.
-/

namespace SymbolicMemory

theorem Word.width_of_make {value width : UInt64} {w : Word} (made : make value width = .ok w) :
    w.width = width := by
  unfold make at made
  split at made
  · cases made
    rfl
  · cases made

namespace Expr

/-- The kinds of nodes that a slice does not look into. -/
def Kind.isSealed : Kind → Bool
  | .var | .not | .zext | .binary => true
  | .const | .concat | .extract => false

/-- What cutting and joining are asked for. -/
inductive Piece where
  /-- Some bits of an expression. -/
  | slice (e : Expr) (offset width : UInt64)
  /-- Two expressions side by side. -/
  | append (msb lsb : Expr)

namespace Piece

/-- The bits that are asked for. -/
def width : Piece → UInt64
  | slice _ _ width => width
  | append msb lsb => msb.width + lsb.width

/-- The expressions that the answer is made from all have a property. -/
def All (property : Expr → Prop) : Piece → Prop
  | slice e _ _ => property e
  | append msb lsb => property msb ∧ property lsb

end Piece

/-- The ways in which a slice or a concatenation comes about. -/
inductive Cut : Piece → Expr → Prop
  | whole {e : Expr} {offset : UInt64} : Cut (.slice e offset e.width) e
  | word {tag : Tag} {w w' : Word} {offset width : UInt64} :
      w.extract offset width = .ok w' → Cut (.slice (const tag w) offset width) (const none w')
  | deeper {tag : Tag} {source r : Expr} {offset width offset' width' : UInt64} :
      Cut (.slice source (offset' + offset) width) r →
      Cut (.slice (extract tag source offset' width') offset width) r
  | high {tag : Tag} {msb lsb r : Expr} {offset width : UInt64} :
      Cut (.slice msb (offset - lsb.width) width) r → Cut (.slice (concat tag msb lsb) offset width) r
  | low {tag : Tag} {msb lsb r : Expr} {offset width : UInt64} :
      Cut (.slice lsb offset width) r → Cut (.slice (concat tag msb lsb) offset width) r
  | across {tag : Tag} {msb lsb high low r : Expr} {offset width : UInt64} :
      Cut (.slice msb 0 (offset + width - lsb.width)) high →
      Cut (.slice lsb offset (lsb.width - offset)) low → Cut (.append high low) r →
      Cut (.slice (concat tag msb lsb) offset width) r
  | part {source : Expr} {offset width : UInt64} : source.kind.isSealed = true → width ≠ 0 →
      offset + width ≤ source.width → width ≠ source.width →
      Cut (.slice source offset width) (extract none source offset width)
  | words {tag tag' : Tag} {a b w : Word} :
      a.concat b = .ok w → Cut (.append (const tag a) (const tag' b)) (const none w)
  | adjacent {tag tag' : Tag} {source r : Expr} {offset width offset' width' : UInt64} :
      Cut (.slice source offset' (width + width')) r →
      Cut (.append (extract tag source offset width) (extract tag' source offset' width')) r
  | pair {msb lsb : Expr} : join msb lsb = .ok .pair → Cut (.append msb lsb) (concat none msb lsb)

/-- Two adjacent slices of one source are joined by cutting the source, which is smaller. -/
theorem append_cuts_of {msb lsb r : Expr} (made : msb.append lsb = .ok r)
    (cuts : ∀ source : Expr, source.nodes = msb.sourceNodes → ∀ offset width,
      source.slice offset width = .ok r → Cut (.slice source offset width) r) : Cut (.append msb lsb) r := by
  by_cases wide : 64 < msb.width + lsb.width
  · have refused : join msb lsb = .error (.concatWidth msb.width lsb.width) := if_pos wide
    rw [append, refused] at made
    cases made
  obtain ⟨tag, a, tag', b, rfl, rfl, joined⟩ |
    ⟨tag, source, offset, width, tag', offset', width', rfl, rfl, _, joined⟩ | joined := join_cases wide
  · rw [append, joined] at made
    cases word : a.concat b with
    | error fault =>
        rw [word] at made
        cases made
    | ok w =>
        rw [word] at made
        cases made
        exact .words word
  · rw [append, joined] at made
    exact .adjacent (cuts source rfl _ _ made)
  · rw [append, joined] at made
    cases made
    exact .pair joined

theorem slice_cuts {e r : Expr} {offset width : UInt64} (made : e.slice offset width = .ok r) :
    Cut (.slice e offset width) r := by
  -- not by structure: what is cut from the two parts of a pair may be joined by cutting a source
  -- that lies somewhere below them
  induction size : e.nodes using Nat.strongRecOn generalizing e r offset width with
  | _ n ih =>
      subst size
      have smaller : ∀ part : Expr, part.nodes < e.nodes → ∀ {r offset width},
          part.slice offset width = .ok r → Cut (.slice part offset width) r :=
        fun part below _ _ _ made => ih part.nodes below made rfl
      rw [slice_eq] at made
      by_cases empty : width = 0
      · rw [if_pos empty] at made
        cases made
      by_cases beyond : e.width < offset + width
      · rw [if_neg empty, if_pos beyond] at made
        cases made
      by_cases whole : width = e.width
      · rw [if_neg empty, if_neg beyond, if_pos whole] at made
        cases made
        rw [whole]
        exact .whole
      rw [if_neg empty, if_neg beyond, if_neg whole] at made
      cases e with
      | const tag w =>
          dsimp only at made
          cases word : w.extract offset width with
          | error fault =>
              rw [word] at made
              cases made
          | ok w' =>
              rw [word] at made
              cases made
              exact .word word
      | extract tag source offset' width' => exact .deeper (smaller source (by simp [nodes]) made)
      | concat tag msb lsb =>
          have high := @smaller msb (by simp only [nodes]; omega)
          have low := @smaller lsb (by simp only [nodes]; omega)
          dsimp only at made
          split at made
          · exact .high (high made)
          split at made
          · exact .low (low made)
          · cases top : msb.slice 0 (offset + width - lsb.width) with
            | error fault =>
                rw [top] at made
                cases made
            | ok upper =>
                cases bottom : lsb.slice offset (lsb.width - offset) with
                | error fault =>
                    rw [top, bottom] at made
                    cases made
                | ok lower =>
                    rw [top, bottom] at made
                    have below := sourceNodes_of_slice top
                    refine .across (high top) (low bottom) (append_cuts_of made fun source same _ _ => ?_)
                    exact smaller source (by simp only [nodes]; omega)
      | var | not | zext | binary =>
          cases made
          exact .part rfl empty (UInt64.not_lt.mp beyond) whole

theorem append_cuts {msb lsb r : Expr} (made : msb.append lsb = .ok r) : Cut (.append msb lsb) r :=
  append_cuts_of made fun _ _ _ _ => slice_cuts

/-- A slice or a concatenation has the width that was asked for. -/
theorem Cut.width_eq {piece : Piece} {r : Expr} (cut : Cut piece r) : r.width = piece.width := by
  induction cut with
  | whole => rfl
  | word made => exact Word.width_of_make made
  | deeper _ ih | high _ ih | low _ ih => exact ih
  | across _ _ _ top bottom ih =>
      simp only [Piece.width] at top bottom ih ⊢
      rw [ih, top, bottom]
      grind
  | part => rfl
  | words made => exact Word.width_of_make made
  | adjacent _ ih => exact ih
  | pair => rfl

end Expr

end SymbolicMemory
