import SymbolicMemory.Proofs.Cutting
import SymbolicMemory.Proofs.Parts

/-! # Cutting and joining come to an end

Cutting and joining call each other, and what is joined was cut just before. To see that this ends
for every expression, a call is taken apart into the calls that it makes and what it does with their
answers. Nothing about the end is put in: a call finishes if there is a finite account of it and of
all calls made on the way. It does, since whatever is cut next lies properly below what was given at
first. For slices that are joined this holds because what they are slices of lies within the
expressions that they were cut from.
-/

namespace SymbolicMemory

/-- The fault of an assertion in the program, by its report. -/
def Fault.IsAssertion (fault : Fault) : Prop := ∃ text, fault.message = "assert: " ++ text

/-- A text that starts as the report of an assertion does. -/
def Marked (text : String) : Prop := ∃ rest, text = "assert: " ++ rest

theorem Marked.append {text : String} (marked : Marked text) (more : String) : Marked (text ++ more) := by
  obtain ⟨rest, rfl⟩ := marked
  exact ⟨rest ++ more, String.append_assoc⟩

theorem Fault.emptyExtract_isAssertion : emptyExtract.IsAssertion := ⟨"extract width cannot be zero", by decide⟩

theorem Fault.extractRange_isAssertion (offset width available : UInt64) :
    (extractRange offset width available).IsAssertion := by
  have mark : Marked "assert: extract out of bounds: " := ⟨"extract out of bounds: ", by decide⟩
  exact ((((mark.append _).append _).append _).append _).append _

theorem Fault.concatWidth_isAssertion (msb lsb : UInt64) : (concatWidth msb lsb).IsAssertion := by
  have mark : Marked "assert: concat too wide: " := ⟨"concat too wide: ", by decide⟩
  exact ((mark.append _).append _).append _

theorem Fault.constantWidth_isAssertion (width : UInt64) : (constantWidth width).IsAssertion := by
  have mark : Marked "assert: invalid constant width: " := ⟨"invalid constant width: ", by decide⟩
  exact mark.append _

theorem Word.make_asserts {value width : UInt64} {fault : Fault} (failed : make value width = .error fault) :
    fault.IsAssertion := by
  unfold make at failed
  split at failed
  · cases failed
  · cases failed
    exact Fault.constantWidth_isAssertion width

namespace Expr

/-- What is left to do of a call: nothing, or another call first and then something that depends on
    the answer. A call fails if one that it makes fails. -/
inductive Work where
  | done (outcome : Except Fault Expr)
  | call (inner : Piece) (next : Expr → Work)

/-- What a call comes to. -/
def Piece.outcome : Piece → Except Fault Expr
  | slice e offset width => e.slice offset width
  | append msb lsb => msb.append lsb

/-- What cutting does by itself. The calls that it makes are left open. -/
def sliceWork (e : Expr) (offset width : UInt64) : Work :=
  if width = 0 then .done (.error .emptyExtract)
  else if e.width < offset + width then .done (.error (.extractRange offset width e.width))
  else if width = e.width then .done (.ok e)
  else match e with
    | const _ w => .done ((w.extract offset width).map (const none))
    | extract _ source offset' _ => .call (.slice source (offset' + offset) width) fun r => .done (.ok r)
    | concat _ msb lsb =>
      if lsb.width ≤ offset then .call (.slice msb (offset - lsb.width) width) fun r => .done (.ok r)
      else if offset + width ≤ lsb.width then .call (.slice lsb offset width) fun r => .done (.ok r)
      else
        .call (.slice msb 0 (offset + width - lsb.width)) fun high =>
        .call (.slice lsb offset (lsb.width - offset)) fun low =>
        .call (.append high low) fun r => .done (.ok r)
    | e => .done (.ok (extract none e offset width))

/-- What joining does by itself. -/
def appendWork (msb lsb : Expr) : Work :=
  match join msb lsb with
  | .error fault => .done (.error fault)
  | .ok (.word w) => .done (.ok (const none w))
  | .ok (.slice source offset width) => .call (.slice source offset width) fun r => .done (.ok r)
  | .ok .pair => .done (.ok (concat none msb lsb))

/-- What a call does by itself. -/
def Piece.work : Piece → Work
  | slice e offset width => sliceWork e offset width
  | append msb lsb => appendWork msb lsb

/-- There is a finite account of some work and of all calls made for it, with this outcome. -/
inductive Finishes : Work → Except Fault Expr → Prop
  | done (outcome : Except Fault Expr) : Finishes (.done outcome) outcome
  | fails {inner : Piece} {next : Expr → Work} {fault : Fault} : Finishes inner.work (.error fault) →
      Finishes (.call inner next) (.error fault)
  | goesOn {inner : Piece} {next : Expr → Work} {r : Expr} {outcome : Except Fault Expr} :
      Finishes inner.work (.ok r) → Finishes (next r) outcome → Finishes (.call inner next) outcome

/-- A call that some work comes to make itself. -/
inductive Makes : Work → Piece → Prop
  | first (inner : Piece) (next : Expr → Work) : Makes (.call inner next) inner
  | later {inner piece : Piece} {next : Expr → Work} {r : Expr} : Finishes piece.work (.ok r) →
      Makes (next r) inner → Makes (.call piece next) inner

/-- One call directly makes another. -/
def Calls (outer inner : Piece) : Prop := Makes outer.work inner

namespace Work

/-- The outcome of some work, given that of every call. -/
def result : Work → Except Fault Expr
  | done outcome => outcome
  | call inner next => do (next (← inner.outcome)).result

theorem result_call_done (inner : Piece) : (call inner fun r => done (.ok r)).result = inner.outcome :=
  bind_pure inner.outcome

end Work

/-- What a call does by itself, put together with what its calls come to, is what it comes to. -/
theorem work_result (piece : Piece) : piece.work.result = piece.outcome := by
  cases piece with
  | slice e offset width =>
      rw [Piece.outcome, slice_eq, Piece.work]
      unfold sliceWork
      split_ifs with empty beyond whole
      · rfl
      · rfl
      · rfl
      cases e with
      | const tag w => rfl
      | extract tag source offset' width' => exact Work.result_call_done _
      | concat tag msb lsb =>
          dsimp only
          split_ifs
          · exact Work.result_call_done _
          · exact Work.result_call_done _
          · change (do
              let high ← msb.slice 0 (offset + width - lsb.width)
              let low ← lsb.slice offset (lsb.width - offset)
              (Work.call (.append high low) fun r => .done (.ok r)).result) = _
            simp only [Work.result_call_done, Piece.outcome]
      | var | not | zext | binary => rfl
  | append msb lsb =>
      rw [Piece.outcome, append, Piece.work, appendWork]
      cases join msb lsb with
      | error fault => rfl
      | ok joined =>
          cases joined with
          | word | pair => rfl
          | slice => exact Work.result_call_done _

theorem Finishes.eq_result {work : Work} {outcome : Except Fault Expr} (finishes : Finishes work outcome) :
    outcome = work.result := by
  induction finishes with
  | done outcome => rfl
  | fails _ ih =>
      rw [work_result] at ih
      rw [Work.result, ← ih]
      rfl
  | goesOn _ _ ih ih' =>
      rw [work_result] at ih
      rw [Work.result, ← ih]
      exact ih'

theorem Finishes.eq_outcome {piece : Piece} {outcome : Except Fault Expr} (finishes : Finishes piece.work outcome) :
    outcome = piece.outcome := finishes.eq_result.trans (work_result piece)

/-- Work finishes if every call that it makes does. -/
theorem finishes_of_calls {work : Work}
    (calls : ∀ inner, Makes work inner → Finishes inner.work inner.outcome) : Finishes work work.result := by
  induction work with
  | done outcome => exact .done outcome
  | call inner next ih =>
      have first := calls inner (.first inner next)
      rw [Work.result]
      cases answer : inner.outcome with
      | error fault =>
          rw [answer] at first
          exact .fails first
      | ok r =>
          rw [answer] at first
          exact .goesOn first (ih r fun inner makes => calls inner (.later first makes))

/-- Where that lies which a slice returned by a call is a slice of. -/
def Piece.Contains (source : Expr) : Piece → Prop
  | slice e _ _ => source.Within e
  | append msb _ => ∃ cut, msb.slice? = some cut ∧ source.Within cut.1

/-- A slice that is returned was cut from a part of what was given. Where two slices are joined, this
    is a part of their common source. -/
theorem Cut.source_contained {piece : Piece} {r source : Expr} {offset width : UInt64} (cut : Cut piece r)
    (sliced : r.slice? = some (source, offset, width)) : piece.Contains source := by
  induction cut generalizing source offset width with
  | @whole e _ =>
      cases e with
      | extract =>
          cases sliced
          exact .single List.mem_cons_self
      | _ => cases sliced
  | word | words | pair => cases sliced
  | deeper _ ih | high _ ih => exact (ih sliced).tail List.mem_cons_self
  | low _ ih => exact (ih sliced).tail (by simp [operands])
  | across _ _ _ top _ ih =>
      obtain ⟨⟨middle, _, _⟩, upper, within⟩ := ih sliced
      exact (within.trans (top upper)).tail List.mem_cons_self
  | part =>
      cases sliced
      exact .refl
  | adjacent _ ih => exact ⟨_, rfl, ih sliced⟩

/-- All that a call may go on to cut lies properly below an expression. -/
def Piece.Below (given : Expr) : Piece → Prop
  | slice e _ _ => e.Below given
  | append msb _ => ∀ cut, msb.slice? = some cut → cut.1.Below given

theorem Makes.eq_of_call_done {inner piece : Piece}
    (makes : Makes (.call piece fun r => .done (.ok r)) inner) : inner = piece := by
  cases makes with
  | first => rfl
  | later _ makes => cases makes

/-- Cutting calls for nothing but what lies properly below the expression that is cut. -/
theorem slice_calls {e : Expr} {offset width : UInt64} {inner : Piece}
    (calls : Calls (.slice e offset width) inner) : inner.Below e := by
  rw [Calls, Piece.work] at calls
  unfold sliceWork at calls
  split_ifs at calls with empty beyond whole
  · cases calls
  · cases calls
  · cases calls
  cases e with
  | const | var | not | zext | binary => cases calls
  | extract tag source offset' width' =>
      cases calls.eq_of_call_done
      exact .single List.mem_cons_self
  | concat tag msb lsb =>
      have upper : msb ∈ (concat tag msb lsb).operands := by simp [operands]
      have lower : lsb ∈ (concat tag msb lsb).operands := by simp [operands]
      dsimp only at calls
      split_ifs at calls
      · cases calls.eq_of_call_done
        exact .single upper
      · cases calls.eq_of_call_done
        exact .single lower
      · cases calls with
        | first => exact .single upper
        | later top calls =>
            cases calls with
            | first => exact .single lower
            | later bottom calls =>
                cases calls.eq_of_call_done
                rintro ⟨source, _, _⟩ sliced
                have cut := slice_cuts top.eq_outcome.symm
                exact (cut.source_contained sliced).below upper

/-- Joining calls for nothing but the common source of two slices. -/
theorem append_calls {msb lsb : Expr} {inner : Piece} (calls : Calls (.append msb lsb) inner) :
    ∃ source offset width, inner = .slice source offset width ∧
      (∃ from_ size, msb.slice? = some (source, from_, size)) ∧
      ∃ from_ size, lsb.slice? = some (source, from_, size) := by
  rw [Calls, Piece.work, appendWork] at calls
  by_cases wide : 64 < msb.width + lsb.width
  · have refused : join msb lsb = .error (.concatWidth msb.width lsb.width) := if_pos wide
    simp only [refused] at calls
    cases calls
  obtain ⟨tag, a, tag', b, rfl, rfl, joined⟩ |
    ⟨tag, source, offset, width, tag', offset', width', rfl, rfl, _, joined⟩ | joined := join_cases wide
  · simp only [joined] at calls
    cases word : a.concat b with
    | error | ok =>
        simp only [word, Except.map] at calls
        cases calls
  · simp only [joined] at calls
    cases calls.eq_of_call_done
    exact ⟨_, _, _, rfl, ⟨_, _, rfl⟩, _, _, rfl⟩
  · simp only [joined] at calls
    cases calls

theorem below_of_slice? {e source : Expr} {offset width : UInt64} (sliced : e.slice? = some (source, offset, width)) :
    source.Below e := by
  cases e with
  | extract =>
      cases sliced
      exact .single List.mem_cons_self
  | _ => cases sliced

/-- A call stays below what was given at first if the one that makes it does. -/
theorem Calls.stays_below {given : Expr} {outer inner : Piece} (calls : Calls outer inner)
    (below : outer.Below given) : inner.Below given := by
  cases outer with
  | slice e offset width =>
      have deeper := slice_calls calls
      cases inner with
      | slice e' offset' width' => exact deeper.trans below
      | append msb lsb => exact fun cut sliced => (deeper cut sliced).trans below
  | append msb lsb =>
      obtain ⟨source, offset, width, rfl, ⟨_, _, high⟩, _⟩ := append_calls calls
      exact below _ high

/-- A call that is made at once lies below all that was given. -/
theorem Calls.below {outer inner : Piece} (calls : Calls outer inner) : outer.All fun given => inner.Below given := by
  cases outer with
  | slice e offset width => exact slice_calls calls
  | append msb lsb =>
      obtain ⟨source, offset, width, rfl, ⟨_, _, high⟩, _, _, low⟩ := append_calls calls
      exact ⟨below_of_slice? high, below_of_slice? low⟩

/-- A call that is made on the way, at any depth. -/
def Nested (outer inner : Piece) : Prop := Relation.TransGen Calls outer inner

theorem Nested.below {outer inner : Piece} (nested : Nested outer inner) :
    outer.All fun given => inner.Below given := by
  induction nested with
  | single calls => exact calls.below
  | tail _ calls ih =>
      cases outer with
      | slice => exact calls.stays_below ih
      | append => exact ⟨calls.stays_below ih.1, calls.stays_below ih.2⟩

/-- How much is left to cut. Joining comes just after the cutting of its source. -/
def Piece.size : Piece → Nat
  | slice e _ _ => 2 * e.nodes
  | append msb _ => 2 * msb.sourceNodes + 1

theorem nodes_pos (e : Expr) : 0 < e.nodes := by
  cases e <;> simp [nodes]

theorem Calls.size_lt {outer inner : Piece} (calls : Calls outer inner) : inner.size < outer.size := by
  cases outer with
  | slice e offset width =>
      have below := slice_calls calls
      cases inner with
      | slice e' offset' width' =>
          have smaller : e'.nodes < e.nodes := Expr.Below.nodes_lt below
          simp only [Piece.size]
          omega
      | append msb lsb =>
          have positive := nodes_pos e
          cases msb with
          | extract tag source offset' width' =>
              have smaller : source.nodes < e.nodes := (below _ rfl).nodes_lt
              simp only [Piece.size, sourceNodes]
              omega
          | _ =>
              simp only [Piece.size, sourceNodes]
              omega
  | append msb lsb =>
      obtain ⟨source, offset, width, rfl, ⟨_, _, high⟩, _⟩ := append_calls calls
      cases msb with
      | extract =>
          cases high
          simp [Piece.size, sourceNodes]
      | _ => cases high

/-- No chain of calls goes on for ever. -/
theorem calls_wellFounded : WellFounded fun inner outer => Calls outer inner :=
  Subrelation.wf Calls.size_lt (measure Piece.size).wf

theorem finishes_outcome (piece : Piece) : Finishes piece.work piece.outcome := by
  induction piece using calls_wellFounded.induction with
  | _ piece ih =>
      rw [← work_result]
      exact finishes_of_calls ih

/-- Only assertions make some work fail, whatever its calls return. -/
def Work.Asserts : Work → Prop
  | done outcome => ∀ fault, outcome = .error fault → fault.IsAssertion
  | call _ next => ∀ r, (next r).Asserts

theorem slice_asserts (e : Expr) (offset width : UInt64) : (sliceWork e offset width).Asserts := by
  unfold sliceWork
  split_ifs with empty beyond whole
  · rintro _ ⟨⟩
    exact Fault.emptyExtract_isAssertion
  · rintro _ ⟨⟩
    exact Fault.extractRange_isAssertion _ _ _
  · rintro _ ⟨⟩
  cases e with
  | const tag w =>
      intro fault failed
      cases cut : w.extract offset width with
      | ok w' => simp [cut, Except.map] at failed
      | error fault' =>
          simp only [cut, Except.map, Except.error.injEq] at failed
          exact failed ▸ Word.make_asserts cut
  | extract tag source offset' width' =>
      rintro r _ ⟨⟩
  | concat tag msb lsb =>
      dsimp only
      split_ifs
      · rintro r _ ⟨⟩
      · rintro r _ ⟨⟩
      · rintro high low r _ ⟨⟩
  | var | not | zext | binary => rintro _ ⟨⟩

theorem append_asserts (msb lsb : Expr) : (appendWork msb lsb).Asserts := by
  unfold appendWork
  by_cases wide : 64 < msb.width + lsb.width
  · have refused : join msb lsb = .error (.concatWidth msb.width lsb.width) := if_pos wide
    rw [refused]
    rintro _ ⟨⟩
    exact Fault.concatWidth_isAssertion _ _
  obtain ⟨tag, a, tag', b, rfl, rfl, joined⟩ |
    ⟨tag, source, offset, width, tag', offset', width', rfl, rfl, _, joined⟩ | joined := join_cases wide
  · rw [joined]
    cases both : a.concat b with
    | ok w => rintro _ ⟨⟩
    | error fault =>
        rintro _ ⟨⟩
        exact Word.make_asserts both
  · rw [joined]
    rintro r _ ⟨⟩
  · rw [joined]
    rintro _ ⟨⟩

theorem work_asserts (piece : Piece) : piece.work.Asserts := by
  cases piece with
  | slice e offset width => exact slice_asserts e offset width
  | append msb lsb => exact append_asserts msb lsb

theorem Finishes.asserts {work : Work} {fault : Fault} (finishes : Finishes work (.error fault))
    (asserts : work.Asserts) : fault.IsAssertion := by
  generalize ends : Except.error fault = outcome at finishes
  induction finishes with
  | done outcome => exact asserts fault ends.symm
  | @fails inner _ _ _ ih => exact ih (work_asserts inner) ends
  | goesOn _ _ _ ih => exact ih (asserts _) ends

/-- Cutting and joining end on expressions of any shape, at any offset and width: a call finishes in
    one way, with an expression or with a failed assertion. No chain of calls goes on for ever, and
    whatever a call on the way cuts is a proper part of each expression that was given at first. -/
theorem slicing_ends (piece : Piece) :
    (∀ outcome, Finishes piece.work outcome ↔ outcome = piece.outcome) ∧
    ((∃ r, piece.outcome = .ok r) ∨ ∃ fault, piece.outcome = .error fault ∧ fault.IsAssertion) ∧
    Acc (fun inner outer => Calls outer inner) piece ∧
    ∀ e offset width, Nested piece (.slice e offset width) → piece.All fun given => e.Below given := by
  refine ⟨fun outcome => ⟨Finishes.eq_outcome, ?_⟩, ?_, calls_wellFounded.apply piece, ?_⟩
  · rintro rfl
    exact finishes_outcome piece
  · cases ends : piece.outcome with
    | ok r => exact .inl ⟨r, rfl⟩
    | error fault =>
        have finishes := finishes_outcome piece
        rw [ends] at finishes
        exact .inr ⟨fault, rfl, finishes.asserts (work_asserts piece)⟩
  · intro e offset width nested
    exact nested.below

/-- Bits from the middle of two adjacent slices: both are cut further, and then they are joined by
    cutting their source, which is a proper part of what was given. -/
theorem slicing_ends_rejoined :
    let x := var none ⟨"x", 32⟩
    let given := concat none (extract none x 16 16) (extract none x 0 16)
    Nested (.slice given 8 16) (.slice x 8 16) ∧ x.Below given := by
  intro x given
  have top : Finishes (Piece.work (.slice (extract none x 16 16) 0 8)) (.ok (extract none x 16 8)) :=
    .goesOn (.done _) (.done _)
  have bottom : Finishes (Piece.work (.slice (extract none x 0 16) 8 8)) (.ok (extract none x 8 8)) :=
    .goesOn (.done _) (.done _)
  have plan : Piece.work (.slice given 8 16) =
      .call (.slice (extract none x 16 16) 0 8) fun high => .call (.slice (extract none x 0 16) 8 8) fun low =>
        .call (.append high low) fun r => .done (.ok r) := by
    simp [Piece.work, sliceWork, given, width]
  have joins : Calls (.slice given 8 16) (.append (extract none x 16 8) (extract none x 8 8)) := by
    rw [Calls, plan]
    exact .later top (.later bottom (.first _ _))
  have cuts : Calls (.append (extract none x 16 8) (extract none x 8 8)) (.slice x 8 16) := .first _ _
  have nested : Nested (.slice given 8 16) (.slice x 8 16) := .tail (.single joins) cuts
  exact ⟨nested, (slicing_ends (.slice given 8 16)).2.2.2 x 8 16 nested⟩

end Expr

end SymbolicMemory
