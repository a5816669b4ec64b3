import SymbolicMemory.Proofs.Concretization
import SymbolicMemory.Proofs.Naming

/-! # Two runs of one computation

Two runs of the same operations on a memory differ in the tags of new nodes, and in the names of
fresh bytes if names were drawn in between. What they build is the same apart from that, which
takes some care: two slices are put back together only if they were cut out of one node, so tags
matter. They do not matter here because slices are cut out of stored values only, and a stored
value is one and the same in both runs.
-/

namespace SymbolicMemory

open Names Session

namespace Expr

/-- Every node has its tag. -/
def Tagged : Expr → Prop
  | const tag _ => tag.isSome
  | var tag _ => tag.isSome
  | concat tag msb lsb => tag.isSome ∧ msb.Tagged ∧ lsb.Tagged
  | extract tag source _ _ => tag.isSome ∧ source.Tagged
  | not tag source => tag.isSome ∧ source.Tagged
  | zext tag source _ => tag.isSome ∧ source.Tagged
  | binary tag _ lhs rhs => tag.isSome ∧ lhs.Tagged ∧ rhs.Tagged

instance decidableTagged : (e : Expr) → Decidable e.Tagged
  | const tag _ => inferInstanceAs (Decidable (tag.isSome = true))
  | var tag _ => inferInstanceAs (Decidable (tag.isSome = true))
  | concat _ msb lsb =>
    have := decidableTagged msb
    have := decidableTagged lsb
    inferInstanceAs (Decidable (_ ∧ _ ∧ _))
  | extract _ source _ _ =>
    have := decidableTagged source
    inferInstanceAs (Decidable (_ ∧ _))
  | not _ source =>
    have := decidableTagged source
    inferInstanceAs (Decidable (_ ∧ _))
  | zext _ source _ =>
    have := decidableTagged source
    inferInstanceAs (Decidable (_ ∧ _))
  | binary _ _ lhs rhs =>
    have := decidableTagged lhs
    have := decidableTagged rhs
    inferInstanceAs (Decidable (_ ∧ _ ∧ _))

/-- Other names for the variables. -/
def rename (f : String → String) : Expr → Expr
  | const tag w => const tag w
  | var tag v => var tag ⟨f v.name, v.width⟩
  | concat tag msb lsb => concat tag (msb.rename f) (lsb.rename f)
  | extract tag source offset width => extract tag (source.rename f) offset width
  | not tag source => not tag (source.rename f)
  | zext tag source width => zext tag (source.rename f) width
  | binary tag op lhs rhs => binary tag op (lhs.rename f) (rhs.rename f)

theorem rename_eq_self {f : String → String} {e : Expr} (fixed : ∀ v ∈ e.occurrences, f v.name = v.name) :
    e.rename f = e := by
  induction e with
  | const tag w => rfl
  | var tag v => simp only [rename, fixed v (List.mem_singleton.mpr rfl)]
  | concat tag msb lsb ihm ihl =>
      simp only [rename, ihm fun v occurs => fixed v (List.mem_append_left _ occurs),
        ihl fun v occurs => fixed v (List.mem_append_right _ occurs)]
  | extract tag source offset width ih => simp only [rename, ih fixed]
  | not tag source ih => simp only [rename, ih fixed]
  | zext tag source width ih => simp only [rename, ih fixed]
  | binary tag op lhs rhs ihl ihr =>
      simp only [rename, ihl fun v occurs => fixed v (List.mem_append_left _ occurs),
        ihr fun v occurs => fixed v (List.mem_append_right _ occurs)]

/-- A tagged expression is as old as can be. -/
theorem Tagged.stamp {e : Expr} (tagged : e.Tagged) (next : Nat) : e.stamp next = (e, next) := by
  cases e with
  | const tag w =>
      cases tag with
      | none => cases tagged
      | some n => rfl
  | var tag v =>
      cases tag with
      | none => cases tagged
      | some n => rfl
  | concat tag msb lsb =>
      cases tag with
      | none => cases tagged.1
      | some n => rfl
  | extract tag source offset width =>
      cases tag with
      | none => cases tagged.1
      | some n => rfl
  | not tag source =>
      cases tag with
      | none => cases tagged.1
      | some n => rfl
  | zext tag source width =>
      cases tag with
      | none => cases tagged.1
      | some n => rfl
  | binary tag op lhs rhs =>
      cases tag with
      | none => cases tagged.1
      | some n => rfl

/-- What an expression is a slice of, if it is one. -/
def slice? : Expr → Option (Expr × UInt64 × UInt64)
  | extract _ source offset width => some (source, offset, width)
  | _ => none

end Expr

/-- An expression that is the same in both runs: it has its tags, and mentions no name of some. -/
structure Expr.Settled (fresh : String → Prop) (e : Expr) : Prop where
  tagged : e.Tagged
  unused : ∀ v ∈ e.occurrences, ¬ fresh v.name

/-- Expressions that two runs build alike, given which names of one correspond to which of the other. -/
inductive Twin (fresh : String → Prop) (paired : String → String → Prop) : Expr → Expr → Prop
  | same {e : Expr} : e.Settled fresh → Twin fresh paired e e
  | const {tag tag' : Tag} {w : Word} : Twin fresh paired (.const tag w) (.const tag' w)
  | byte {tag tag' : Tag} {name name' : String} {width : UInt64} : paired name name' →
      Twin fresh paired (.var tag ⟨name, width⟩) (.var tag' ⟨name', width⟩)
  | slice {tag tag' : Tag} {source : Expr} {offset width : UInt64} : source.Settled fresh →
      Twin fresh paired (.extract tag source offset width) (.extract tag' source offset width)
  | pair {tag tag' : Tag} {msb msb' lsb lsb' : Expr} : Twin fresh paired msb msb' →
      Twin fresh paired lsb lsb' → Twin fresh paired (.concat tag msb lsb) (.concat tag' msb' lsb')

namespace Twin

variable {fresh : String → Prop} {paired : String → String → Prop} {e e' : Expr}

theorem mono {more : String → String → Prop} (h : Twin fresh paired e e')
    (weaker : ∀ name name', paired name name' → more name name') : Twin fresh more e e' := by
  induction h with
  | same settled => exact .same settled
  | const => exact .const
  | byte names => exact .byte (weaker _ _ names)
  | slice settled => exact .slice settled
  | pair _ _ ihm ihl => exact .pair ihm ihl

theorem width_eq (h : Twin fresh paired e e') : e.width = e'.width := by
  induction h with
  | same settled => rfl
  | const => rfl
  | byte names => rfl
  | slice settled => rfl
  | pair _ _ ihm ihl => rw [Expr.width, Expr.width, ihm, ihl]

theorem word?_eq (h : Twin fresh paired e e') : e.word? = e'.word? := by
  cases h <;> rfl

theorem slice?_eq (h : Twin fresh paired e e') : e.slice? = e'.slice? := by
  cases h <;> rfl

theorem settled_source (h : Twin fresh paired e e') {source : Expr} {offset width : UInt64}
    (sliced : e.slice? = some (source, offset, width)) : source.Settled fresh := by
  cases h with
  | same settled =>
      cases e with
      | extract tag source' offset' width' =>
          cases sliced
          exact ⟨settled.tagged.2, settled.unused⟩
      | _ => cases sliced
  | slice settled =>
      cases sliced
      exact settled
  | _ => cases sliced

/-- Stamping one of two twins leaves them twins. -/
theorem stamp_left (h : Twin fresh paired e e') (next : Nat) : Twin fresh paired (e.stamp next).1 e' := by
  induction h generalizing next with
  | same settled =>
      rw [settled.tagged.stamp]
      exact .same settled
  | @const tag tag' w => cases tag <;> exact .const
  | @byte tag tag' name name' width names => cases tag <;> exact .byte names
  | @slice tag tag' source offset width settled =>
      cases tag with
      | none =>
          simp only [Expr.stamp, settled.tagged.stamp]
          exact .slice settled
      | some n => exact .slice settled
  | @pair tag tag' msb msb' lsb lsb' high low ihm ihl =>
      cases tag with
      | none => exact .pair (ihm _) (ihl _)
      | some n => exact .pair high low

/-- The two sides can be swapped, and with them the names that correspond. -/
theorem swap (h : Twin fresh paired e e') : Twin fresh (fun name name' => paired name' name) e' e := by
  induction h with
  | same settled => exact .same settled
  | const => exact .const
  | byte names => exact .byte names
  | slice settled => exact .slice settled
  | pair _ _ ihm ihl => exact .pair ihm ihl

theorem stamp_right (h : Twin fresh paired e e') (next : Nat) : Twin fresh paired e (e'.stamp next).1 :=
  (h.swap.stamp_left next).swap

/-- Twins have one shape up to a renaming that follows the names and leaves settled parts alone. -/
theorem erase_eq (h : Twin fresh paired e e') {f : String → String}
    (follows : ∀ name name', paired name name' → f name = name')
    (fixes : ∀ name, ¬ fresh name → f name = name) : e'.erase = e.erase.rename f := by
  induction h with
  | @same e settled =>
      refine (Expr.rename_eq_self fun v occurs => fixes _ ?_).symm
      rw [Expr.occurrences_erase] at occurs
      exact settled.unused v occurs
  | const => rfl
  | byte names => rw [Expr.erase, Expr.erase, Expr.rename, follows _ _ names]
  | @slice tag tag' source offset width settled =>
      have same : source.erase.rename f = source.erase := by
        refine Expr.rename_eq_self fun v occurs => fixes _ ?_
        rw [Expr.occurrences_erase] at occurs
        exact settled.unused v occurs
      rw [Expr.erase, Expr.erase, Expr.rename, same]
  | pair _ _ ihm ihl => rw [Expr.erase, Expr.erase, Expr.rename, ihm, ihl]

end Twin

/-- Two runs build twins, or fail with the same fault. -/
inductive Twins (fresh : String → Prop) (paired : String → String → Prop) :
    Except Fault Expr → Except Fault Expr → Prop
  | ok {e e' : Expr} : Twin fresh paired e e' → Twins fresh paired (.ok e) (.ok e')
  | error {fault : Fault} : Twins fresh paired (.error fault) (.error fault)

namespace Expr

/-- Joining looks at widths, at constants, and at what slices were cut out of. -/
theorem join_eq (msb lsb : Expr) : join msb lsb =
    if 64 < msb.width + lsb.width then .error (.concatWidth msb.width lsb.width)
    else match msb.word?, lsb.word? with
      | some a, some b => (a.concat b).map .word
      | _, _ =>
        match msb.slice?, lsb.slice? with
        | some (source, offset, width), some (source', offset', width') =>
          if source = source' ∧ offset' + width' = offset then
            .ok (.slice source offset' (width + width'))
          else .ok .pair
        | _, _ => .ok .pair := by
  cases msb <;> cases lsb <;> rfl

theorem slice?_of_join {msb lsb source : Expr} {offset width : UInt64}
    (joined : join msb lsb = .ok (.slice source offset width)) :
    ∃ offset' width', msb.slice? = some (source, offset', width') := by
  unfold join at joined
  split at joined
  · cases joined
  · split at joined
    · next a _ b _ =>
      cases both : a.concat b with
      | ok w =>
          rw [both] at joined
          cases joined
      | error fault =>
          rw [both] at joined
          cases joined
    · split at joined
      · cases joined
        exact ⟨_, _, rfl⟩
      · cases joined
    · cases joined

variable {fresh : String → Prop} {paired : String → String → Prop}

theorem append_twins {msb msb' lsb lsb' : Expr} (high : Twin fresh paired msb msb')
    (low : Twin fresh paired lsb lsb')
    (cut : ∀ source offset width, join msb lsb = .ok (.slice source offset width) →
      Twins fresh paired (source.slice offset width) (source.slice offset width)) :
    Twins fresh paired (append msb lsb) (append msb' lsb') := by
  have same : join msb' lsb' = join msb lsb := by
    rw [join_eq, join_eq, high.width_eq, low.width_eq, high.word?_eq, low.word?_eq, high.slice?_eq,
      low.slice?_eq]
  unfold append
  rw [same]
  cases joined : join msb lsb with
  | error fault => exact .error
  | ok form =>
      cases form with
      | word w => exact .ok .const
      | slice source offset width => exact cut source offset width joined
      | pair => exact .ok (.pair high low)

/-- A slice of a settled expression is put together from settled parts. -/
theorem Settled.slice_twins {e : Expr} (settled : e.Settled fresh) (offset width : UInt64) :
    Twins fresh paired (e.slice offset width) (e.slice offset width) := by
  induction size : e.nodes using Nat.strongRecOn generalizing e offset width with
  | _ n ih =>
    subst size
    rw [slice_eq]
    split
    · exact .error
    split
    · exact .error
    split
    · exact .ok (.same settled)
    cases e with
    | const tag w =>
        cases cut : w.extract offset width with
        | ok w' =>
            simp only [cut]
            exact .ok .const
        | error fault =>
            simp only [cut]
            exact .error
    | extract tag source offset' width' =>
        exact ih source.nodes (Nat.lt_succ_self _) ⟨settled.tagged.2, settled.unused⟩ _ _ rfl
    | concat tag msb lsb =>
        have high : msb.Settled fresh :=
          ⟨settled.tagged.2.1, fun v occurs => settled.unused v (List.mem_append_left _ occurs)⟩
        have low : lsb.Settled fresh :=
          ⟨settled.tagged.2.2, fun v occurs => settled.unused v (List.mem_append_right _ occurs)⟩
        have below : msb.nodes < (concat tag msb lsb).nodes ∧ lsb.nodes < (concat tag msb lsb).nodes := by
          simp only [nodes]
          omega
        dsimp only
        split
        · exact ih msb.nodes below.1 high _ _ rfl
        split
        · exact ih lsb.nodes below.2 low _ _ rfl
        have highTwins := ih msb.nodes below.1 high 0 (offset + width - lsb.width) rfl
        have lowTwins := ih lsb.nodes below.2 low offset (lsb.width - offset) rfl
        cases cutHigh : msb.slice 0 (offset + width - lsb.width) with
        | error fault => exact .error
        | ok upper =>
            cases cutLow : lsb.slice offset (lsb.width - offset) with
            | error fault => exact .error
            | ok lower =>
                rw [cutHigh] at highTwins
                rw [cutLow] at lowTwins
                cases highTwins with | ok upperTwin =>
                cases lowTwins with | ok lowerTwin =>
                refine append_twins upperTwin lowerTwin fun source offset' width' joined => ?_
                obtain ⟨_, _, sliced⟩ := slice?_of_join joined
                have smaller : source.nodes < (concat tag msb lsb).nodes := by
                  rw [nodes_of_join joined]
                  exact Nat.lt_of_le_of_lt (sourceNodes_of_slice cutHigh) below.1
                exact ih source.nodes smaller (upperTwin.settled_source sliced) _ _ rfl
    | var tag v => exact .ok (.slice settled)
    | not tag source => exact .ok (.slice settled)
    | zext tag source width' => exact .ok (.slice settled)
    | binary tag op lhs rhs => exact .ok (.slice settled)

end Expr

section Building

variable {fresh : String → Prop} {paired : String → String → Prop}

theorem Twin.append {msb msb' lsb lsb' : Expr} (high : Twin fresh paired msb msb')
    (low : Twin fresh paired lsb lsb') :
    Twins fresh paired (Expr.append msb lsb) (Expr.append msb' lsb') := by
  refine Expr.append_twins high low fun source offset width joined => ?_
  obtain ⟨_, _, sliced⟩ := Expr.slice?_of_join joined
  exact (high.settled_source sliced).slice_twins _ _

theorem Twins.map_const (r : Except Fault Word) (tag tag' : Tag) :
    Twins fresh paired (r.map (Expr.const tag)) (r.map (Expr.const tag')) := by
  cases r with
  | ok w => exact .ok .const
  | error fault => exact .error

end Building

/-- A constant at another width is a constant, and its tag plays no part. -/
theorem resize_const (w : Word) (width : UInt64) : ∃ r : Except Fault Word, ∀ tag, ∃ tag',
    (Expr.const tag w).resize width = r.map (Expr.const tag') := by
  by_cases same : width = w.width
  · exact ⟨.ok w, fun tag => ⟨tag, if_pos same⟩⟩
  by_cases less : width < w.width
  · by_cases empty : width = 0
    · refine ⟨.error .emptyExtract, fun tag => ⟨none, ?_⟩⟩
      subst empty
      simp only [Expr.resize, Expr.slice_eq, Expr.width, same, less, if_true, if_false]
      rfl
    by_cases beyond : w.width < 0 + width
    · refine ⟨.error (.extractRange 0 width w.width), fun tag => ⟨none, ?_⟩⟩
      simp only [Expr.resize, Expr.slice_eq, Expr.width, same, less, empty, beyond, if_true, if_false]
      rfl
    · refine ⟨w.extract 0 width, fun tag => ⟨none, ?_⟩⟩
      simp only [Expr.resize, Expr.slice_eq, Expr.width, same, less, empty, beyond, if_true, if_false]
  · refine ⟨w.resize width, fun tag => ⟨none, ?_⟩⟩
    simp only [Expr.resize, Expr.width, same, less, if_false]

/-- An operator on constants gives a constant, and their tags play no part. -/
theorem apply_const (op : Op) (a b : Word) : ∃ r : Except Fault Word, ∀ tag tag₂, ∃ tag',
    Expr.apply op (.const tag a) (.const tag₂ b) = r.map (Expr.const tag') := by
  cases checked : Expr.checkWidths op a.width b.width with
  | error fault =>
      refine ⟨.error fault, fun tag tag₂ => ⟨none, ?_⟩⟩
      simp only [Expr.apply, Expr.width, checked]
      rfl
  | ok done =>
      refine ⟨(Word.fold op a b).map (Word.Folded.resolve a b), fun tag tag₂ => ?_⟩
      simp only [Expr.apply, Expr.width, checked, Expr.combine, bind, Except.bind]
      cases Word.fold op a b with
      | error fault => exact ⟨none, rfl⟩
      | ok folded =>
          cases folded with
          | lhs => exact ⟨tag, rfl⟩
          | rhs => exact ⟨tag₂, rfl⟩
          | word w => exact ⟨none, rfl⟩

end SymbolicMemory
