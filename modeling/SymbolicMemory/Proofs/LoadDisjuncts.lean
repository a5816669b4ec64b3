import SymbolicMemory.Proofs.ExactLoad
import SymbolicMemory.Proofs.Simplified

/-! # The cases of a load

A load from several addresses returns a disjunction with one case for each of them, in ascending
order. A case is the conjunction of two equalities: the result is what is read there, and the
address is that one. Neither is simplified away. The result is a variable that no cell mentions,
so it differs in shape from whatever is read; the address can be something else, so its equality
is no constant. The disjunction of such cases is then taken apart into just these nodes. Nothing
is asked of the cells, which may be expressions without a meaning.
-/

namespace SymbolicMemory

namespace Expr

section Open

variable {lhs rhs : Expr}

theorem word?_of_open (open_ : lhs.isConst = false) : lhs.word? = none := by
  simpa [isConst] using open_

/-- A conjunction or a disjunction of two expressions that are no constants is a node with both. -/
theorem apply_open {op : Op} (junction : op = .and ∨ op = .or) (same : lhs.width = rhs.width)
    (left : lhs.isConst = false) (right : rhs.isConst = false) :
    apply op lhs rhs = .ok (binary none op lhs rhs) := by
  have irreducible : Irreducible op lhs rhs := by
    rcases junction with rfl | rfl <;> simp [Irreducible, left, word?_of_open right]
  rw [apply, checkWidths, if_pos same]
  exact combine_irreducible irreducible

theorem apply_true (bit : lhs.width = 1) (left : lhs.isConst = false) :
    apply .and (ofBool true) lhs = .ok lhs := by
  rw [apply, checkWidths, if_pos (show (ofBool true).width = lhs.width from bit.symm)]
  cases lhs with
  | const => cases left
  | _ => rfl

theorem all_open (leftBit : lhs.width = 1) (rightBit : rhs.width = 1) (left : lhs.isConst = false)
    (right : rhs.isConst = false) : all [lhs, rhs] = .ok (binary none .and lhs rhs) := by
  have both := apply_open (.inl rfl) (leftBit.trans rightBit.symm) left right
  rw [all, List.foldlM_cons, apply_true leftBit left]
  change apply .and lhs rhs >>= pure = _
  rw [both]
  rfl

/-- A disjunction of bits that are no constants is taken apart into what these are taken apart into. -/
theorem disjuncts_foldlM {es : List Expr} {first : Expr}
    (bits : ∀ e ∈ first :: es, e.width = 1 ∧ e.isConst = false) :
    Returns (es.foldlM (apply .or) first) fun choice => choice.disjuncts = (first :: es).flatMap disjuncts := by
  induction es generalizing first with
  | nil => exact .ok (by simp)
  | cons e rest ih =>
      simp only [List.forall_mem_cons] at bits
      obtain ⟨⟨bit, open_⟩, ⟨bit', open'⟩, later⟩ := bits
      rw [List.foldlM_cons, apply_open (.inr rfl) (bit.trans bit'.symm) open_ open']
      intro choice made
      rw [@ih (binary none .or first e) (List.forall_mem_cons.mpr ⟨⟨bit, rfl⟩, later⟩) choice made]
      simp [disjuncts, bit]

theorem stamp_old {e : Expr} (old : e.isOld = true) (next : Nat) : (e.stamp next).1 = e := by
  cases e with
  | const tag | var tag | concat tag | extract tag | not tag | zext tag | binary tag =>
      cases tag with
      | none => cases old
      | some n => rfl

/-- The new nodes of a disjunction get their tags, the old ones that it is taken apart into stay. -/
theorem disjuncts_stamp {e : Expr} (old : ∀ d ∈ e.disjuncts, d.isOld = true) (next : Nat) :
    (e.stamp next).1.disjuncts = e.disjuncts := by
  fun_induction disjuncts e generalizing next with
  | case1 tag lhs rhs bit ihl ihr =>
      simp only [List.forall_mem_append] at old
      cases tag with
      | some n => simp [stamp, disjuncts, bit]
      | none => simp [stamp, disjuncts, width_stamp, bit, ihl old.1, ihr old.2]
  | case2 tag lhs rhs wide =>
      rw [stamp_old (old _ (List.mem_singleton.mpr rfl))]
      simp [disjuncts, wide]
  | case3 e other =>
      rw [stamp_old (old _ (List.mem_singleton.mpr rfl)), disjuncts]
      exact other

/-- An old bit that a disjunction with others neither changes nor takes apart. -/
structure Atom (c : Expr) : Prop where
  bit : c.width = 1
  open_ : c.isConst = false
  old : c.isOld = true
  alone : c.disjuncts = [c]

theorem disjuncts_any {cs : List Expr} (some_ : cs ≠ []) (atoms : ∀ c ∈ cs, c.Atom) (next : Nat) :
    Returns (any cs) fun choice => (choice.stamp next).1.disjuncts = cs := by
  have parts : cs.flatMap disjuncts = cs := by
    rw [List.flatMap_congr fun c member => (atoms c member).alone]
    simp
  cases cs with
  | nil => cases some_ rfl
  | cons first rest =>
      intro choice made
      have apart := disjuncts_foldlM (fun c member => ⟨(atoms c member).bit, (atoms c member).open_⟩) choice made
      rw [parts] at apart
      rw [disjuncts_stamp (fun d member => (atoms d (apart ▸ member)).old), apart]

/-- A conjunction whose tag is new is an atom. -/
theorem atom_stamp (bit : lhs.width = 1) (next : Nat) : ((binary none .and lhs rhs).stamp next).1.Atom where
  bit := (width_stamp lhs next).trans bit
  open_ := rfl
  old := rfl
  alone := rfl

/-- An equality with a variable is a node, unless it is with the variable itself. -/
theorem apply_eq_var {tag : Tag} {r : Var} {value : Expr} (apart : r ∉ value.occurrences) :
    Returns (apply .eq (var tag r) value) fun same => same.width = 1 ∧ same.isConst = false := by
  unfold apply
  refine (Returns.trivial _).bind fun _ _ => ?_
  cases constant : value.isConst with
  | true =>
      obtain ⟨tag', c, rfl⟩ := eq_const_of_isConst constant
      exact .ok ⟨rfl, rfl⟩
  | false =>
      have different : (var tag r).alike value = false := by
        refine eq_false_of_ne_true fun alike => apart ?_
        rw [← occurrences_erase, ← alike_iff.mp alike]
        exact List.mem_singleton.mpr rfl
      have irreducible : Irreducible .eq (var tag r) value := by
        simp [Irreducible, constant, different, word?]
      rw [combine_irreducible irreducible]
      exact .ok ⟨rfl, rfl⟩

theorem Cut.occurrences {piece : Piece} {r : Expr} (cut : Cut piece r) {P : Var → Prop}
    (known : piece.All fun e => ∀ u ∈ e.occurrences, P u) : ∀ u ∈ r.occurrences, P u := by
  induction cut with
  | whole | part => exact known
  | word | words => simp [Expr.occurrences]
  | deeper _ ih => exact ih known
  | high _ ih => exact ih fun u occurs => known u (List.mem_append_left _ occurs)
  | low _ ih => exact ih fun u occurs => known u (List.mem_append_right _ occurs)
  | across _ _ _ top bottom ih =>
      exact ih ⟨top fun u occurs => known u (List.mem_append_left _ occurs),
        bottom fun u occurs => known u (List.mem_append_right _ occurs)⟩
  | adjacent _ ih => exact ih known.1
  | pair => exact fun u occurs => (List.mem_append.mp occurs).elim (known.1 u) (known.2 u)

end Open

end Expr

theorem Concretizer.concretize_forLoad {s : Exhaustive} {v : Value} (asks : Asks s v) (c : Concretizer) :
    Ensures (c.concretize v Strategy.forLoad) (fun found => found.others ≠ [] →
      (possible s v).Nontrivial ∧ found.toList.Pairwise (· < ·) ∧ ∀ x, x ∈ found.toList ↔ x ∈ possible s v)
      (fun _ => True) := by
  have chosen : (possible s v).Nontrivial → ∀ strategy ∈ Strategy.forLoad, Ensures (c.choose v strategy)
      (fun found => found.tail ≠ [] → found.Pairwise (· < ·) ∧ ∀ x, x ∈ found ↔ x ∈ possible s v)
      s.solver.Reports := by
    intro some_
    simp only [Strategy.forLoad, List.forall_mem_cons, List.not_mem_nil, false_implies, implies_true, and_true]
    constructor
    · refine (everyNear_right asks c some_.nonempty).mono (fun found outcome several => ?_) fun _ h => h
      obtain ⟨_, _, _, _, _, ⟨rfl, _⟩ | ⟨_, listed⟩⟩ := outcome
      · cases several rfl
      · exact listed
    · refine (any_chosen asks c some_.nonempty).mono (fun found outcome several => ?_) fun _ h => h
      cases found with
      | nil => cases several rfl
      | cons first others => exact absurd outcome.2.1 several
  refine (concretize_right asks chosen).mono (fun found right several => ?_) fun _ _ => trivial
  rcases right with ⟨x, only, rfl⟩ | ⟨some_, _, _, _, _, _, listed⟩
  · cases several rfl
  · exact ⟨some_, listed several⟩

/-- Goes on after a computation within the session, knowing that it succeeded. -/
theorem On.ends_after {σ α β : Type} {x : Run α} {f : α → On σ β} {thing : σ} {session : Session}
    {returns : β → σ × Session → Prop}
    (go : ∀ a left, x session = .ok a left → Ends (f a) (thing, left) returns (fun _ _ => True)) :
    Ends (liftM x >>= f) (thing, session) returns (fun _ _ => True) :=
  On.ends_first (.intro (fun _ _ done => done) fun _ _ _ => trivial) (fun _ _ _ => trivial) go

namespace Memory

/-- A memory has the settings of another one, and all its cells. -/
def Keeps (m new : Memory) : Prop :=
  new.settings = m.settings ∧ ∀ address cell, m.cell? address = some cell → new.cell? address = some cell

theorem Reading.keeps {before after : Memory × Session} (reading : Reading before after) :
    before.1.Keeps after.1 := by
  obtain ⟨_, draws⟩ := reading
  exact ⟨draws.settings_eq, draws.kept⟩

theorem Keeps.mentions {m new : Memory} (keeps : m.Keeps new) {u : Var} (mentions : m.Mentions u) :
    new.Mentions u := by
  obtain ⟨address, cell, present, occurs⟩ := mentions
  exact ⟨address, cell, keeps.2 address cell present, occurs⟩

theorem readCell_mentioned (address : UInt64) (start : Memory × Session) :
    Ends (readCell address) start
      (fun cell last => start.1.Keeps last.1 ∧ ∀ u ∈ cell.occurrences, last.1.Mentions u) (fun _ _ => True) := by
  refine .intro (fun cell last done => ⟨((readCell_reading address).of_ok done).keeps, fun u occurs => ?_⟩)
    fun _ _ _ => trivial
  obtain ⟨m, s⟩ := start
  refine ⟨m.wrap address, cell, ?_, occurs⟩
  cases present : m.cell? (m.wrap address) with
  | some old =>
      cases (readCell_present present s).symm.trans done
      exact present
  | none =>
      have made : ∃ cell left, m.store.materialize (m.wrap address) s = .ok cell left := by
        obtain ⟨tag, left, ⟨b, _, made, _⟩ | ⟨_, made, _⟩⟩ := m.store.materialize_cases (m.wrap address) s
        · exact ⟨_, left, made⟩
        · exact ⟨_, left, made⟩
      obtain ⟨fresh, left, made⟩ := made
      cases (readCell_absent present made).symm.trans done
      rw [put, cell?_insert, if_pos rfl]

theorem readMore_mentioned (address : UInt64) (count : Nat) {soFar : Expr} {start : Memory × Session}
    (known : ∀ u ∈ soFar.occurrences, start.1.Mentions u) :
    Ends (readMore address count soFar) start (fun value last => ∀ u ∈ value.occurrences, last.1.Mentions u)
      (fun _ _ => True) := by
  induction count generalizing address soFar start with
  | zero => exact .pure known
  | succ count ih =>
      refine (readCell_mentioned address start).bind (fun _ _ _ => trivial) ?_
      rintro cell ⟨m, s⟩ ⟨keeps, here⟩
      have before : ∀ u ∈ soFar.occurrences, m.Mentions u := fun u occurs => keeps.mentions (known u occurs)
      refine On.ends_after fun joined s' made => ih (address + 1) ?_
      obtain ⟨e, next, joined, rfl⟩ := Ends.of_ok (Session.make_stamps _ s) made
      rw [← Expr.occurrences_erase, Expr.erase_stamp, Expr.occurrences_erase]
      split at joined
      · exact (Expr.append_cuts joined).occurrences ⟨here, before⟩
      · exact (Expr.append_cuts joined).occurrences ⟨before, here⟩

/-- The variables of a value that was read are mentioned in cells. -/
theorem readValue_mentioned (address : UInt64) (count : Nat) (start : Memory × Session) :
    Ends (readValue address count) start (fun value last => ∀ u ∈ value.occurrences, last.1.Mentions u)
      (fun _ _ => True) :=
  (readCell_mentioned address start).bind (fun _ _ _ => trivial) fun _ _ known =>
    readMore_mentioned _ _ known.2

/-- The equalities of a case: a value is read at an address in the course of a load, the result is that value
    and the address is that one. -/
def Equates (v : Value) (result : Expr) (count : Nat) (start last : Memory × Session) (concrete : UInt64)
    (same place : Expr) : Prop :=
  ∃ before after value, Reading start before ∧ readValue concrete count before = .ok value after ∧
    Reading after last ∧ Expr.apply .eq result value = .ok same ∧ start.1.pinned v concrete = .ok place

/-- What a case of a load is before one looks at it: both equalities, joined somehow. -/
def Draft (v : Value) (result : Expr) (count : Nat) (start last : Memory × Session) (concrete : UInt64)
    (c : Expr) : Prop :=
  ∃ same place e next, Equates v result count start last concrete same place ∧
    Expr.all [same, place] = .ok e ∧ c = (e.stamp next).1

theorem pinned_of_settings {m m' : Memory} (same : m'.settings = m.settings) (v : Value) (concrete : UInt64) :
    m'.pinned v concrete = m.pinned v concrete := by
  have bits : m'.bits = m.bits := congrArg (·.bits) same
  rw [pinned, pinned, bits]

theorem equalities_built (m : Memory) (v : Value) (result value : Expr) (concrete : UInt64) :
    Returns (do
      let same ← Expr.apply .eq result value
      let place ← m.pinned v concrete
      Expr.all [same, place]) fun e => ∃ same place, Expr.apply .eq result value = .ok same ∧
        m.pinned v concrete = .ok place ∧ Expr.all [same, place] = .ok e := by
  refine Returns.bind (fun _ equal => equal) fun same equal => ?_
  refine Returns.bind (fun _ pinned => pinned) fun place pinned e both => ?_
  exact ⟨same, place, equal, pinned, both⟩

/-- A case that is made in a part of a load is made in the load. -/
theorem Draft.widen {v : Value} {result c : Expr} {count : Nat} {start start' last last' : Memory × Session}
    {concrete : UInt64} (draft : Draft v result count start' last concrete c) (before : Reading start start')
    (after : Reading last last') : Draft v result count start last' concrete c := by
  obtain ⟨same, place, e, next, ⟨_, _, value, first, read, second, equal, pinned⟩, made⟩ := draft
  rw [pinned_of_settings before.keeps.1] at pinned
  refine ⟨same, place, e, next, ?_, made⟩
  exact ⟨_, _, value, Trans.trans before first, read, Trans.trans second after, equal, pinned⟩

theorem readCases_drafts (v : Value) (result : Expr) (count : Nat) (concretes : List UInt64)
    (start : Memory × Session) :
    Ends (readCases v result count concretes) start
      (fun cases last => Reading start last ∧
        List.Forall₂ (Draft v result count start last) concretes cases) (fun _ _ => True) := by
  induction concretes generalizing start with
  | nil => exact .pure ⟨Std.Refl.refl start, .nil⟩
  | cons concrete rest ih =>
      refine Ends.bind (.intro (fun value after read => read) fun _ _ _ => trivial) (fun _ _ h => h) ?_
      rintro value ⟨m, s⟩ read
      have reading := (readValue_reading concrete count).of_ok read
      refine On.ends_after fun here s' taken => ?_
      obtain ⟨e, next, built, rfl⟩ := Ends.of_ok (Session.make_stamps _ s) taken
      have made : Reading (m, s) (m, s') := .of_quiet m ((Session.make_quiet _).of_ok taken)
      have begun : Reading start (m, s') := Trans.trans reading made
      obtain ⟨same, place, equal, pinned, both⟩ := equalities_built m v result value concrete e built
      rw [pinned_of_settings reading.keeps.1] at pinned
      refine (ih (m, s')).bind (fun _ _ h => h) ?_
      rintro cases_ last ⟨later, drafts⟩
      have equates : Equates v result count start last concrete same place :=
        ⟨start, (m, s), value, Std.Refl.refl start, read, Trans.trans made later, equal, pinned⟩
      have rest := drafts.imp fun _ _ draft => draft.widen begun (Std.Refl.refl last)
      exact .pure ⟨Trans.trans begun later, .cons ⟨same, place, e, next, equates, both, rfl⟩ rest⟩

/-- One case of a load: the conjunction of two equalities. The value is read in a memory that has all
    the cells of the memory before the load, and leaves one of which all cells are in the memory after it. -/
def Clause (m new : Memory) (v : Value) (result : Expr) (count : Nat) (concrete : UInt64) (c : Expr) :
    Prop :=
  ∃ before after value same place next, m.Keeps before.1 ∧
    readValue concrete count before = .ok value after ∧ after.1.Keeps new ∧
    Expr.apply .eq result value = .ok same ∧ m.pinned v concrete = .ok place ∧
    c = ((Expr.binary none .and same place).stamp next).1

/-- Where the result is mentioned in no cell and the address can be something else, a case is a
    conjunction indeed. -/
theorem Draft.clause {v : Value} {tag : Tag} {r : Var} {count : Nat} {start last : Memory × Session}
    {concrete : UInt64} {c : Expr} (draft : Draft v (.var tag r) count start last concrete c)
    (unstored : ¬ last.1.Mentions r)
    (open_ : Returns (start.1.pinned v concrete) fun place => place.width = 1 ∧ place.isConst = false) :
    c.Atom ∧ Clause start.1 last.1 v (.var tag r) count concrete c := by
  obtain ⟨same, place, e, next, ⟨before, after, value, first, read, second, equal, pinned⟩, both, rfl⟩ := draft
  have apart : r ∉ value.occurrences := fun occurs =>
    unstored (second.keeps.mentions ((readValue_mentioned concrete count before).of_ok read r occurs))
  obtain ⟨bit, sameOpen⟩ := Expr.apply_eq_var apart same equal
  obtain ⟨bit', placeOpen⟩ := open_ place pinned
  cases both.symm.trans (Expr.all_open bit bit' sameOpen placeOpen)
  exact ⟨Expr.atom_stamp bit next,
    before, after, value, same, place, next, first.keeps, read, second.keeps, equal, pinned, rfl⟩

/-- An address is brought to size, narrowed down to several concrete ones, and a case is made for each. -/
theorem loadFrom_drafts (m : Memory) (address : Value) (width : UInt64) (session : Session) :
    Ends (loadFrom address width) (m, session)
      (fun (value, constraints) last => (∀ u ∈ value.occurrences, last.1.Mentions u) ∨
        ∃ start v mid found mid' begun cases e next, m.sized address start = .ok v mid ∧
          m.concretizer.concretize v Strategy.forLoad mid = .ok found mid' ∧ found.others ≠ [] ∧
          List.Forall₂ (Draft v value (width / 8).toNat (m, begun) last) found.toList cases ∧
          Expr.any cases = .ok e ∧ constraints = [(e.stamp next).1])
      (fun _ _ => True) := by
  refine On.ends_after fun _ start _ => ?_
  split
  · exact Ends.bind (.throw trivial) (fun _ _ h => h) fun _ _ (no : False) => no.elim
  refine On.ends_after fun v mid sized => ?_
  refine (concretize_ends m .load v Strategy.forLoad mid).bind (fun _ _ _ => trivial) ?_
  rintro found ⟨_, mid'⟩ ⟨rfl, answer⟩
  split
  · refine (readValue_mentioned _ _ _).bind (fun _ _ _ => trivial) fun value last known => ?_
    exact On.ends_after fun place left _ => .pure (.inl known)
  · next several =>
    refine On.ends_after fun name s _ => On.ends_after fun result begun _ => ?_
    refine (readCases_drafts v result _ found.toList _).bind (fun _ _ _ => trivial) ?_
    rintro cases_ ⟨new, s'⟩ ⟨_, drafts⟩
    refine On.ends_after fun _ s'' recorded => On.ends_after fun choice left taken => ?_
    obtain ⟨e, next, built, rfl⟩ := Ends.of_ok (Session.make_stamps _ s'') taken
    have later : Reading (new, s') (new, left) := .of_quiet new
      (Trans.trans ((Session.record_quiet _).of_ok recorded) ((Session.make_quiet _).of_ok taken))
    have whole := drafts.imp fun _ _ draft => draft.widen (Std.Refl.refl _) later
    exact .pure (.inr ⟨start, v, mid, found, mid', begun, cases_, e, next, sized, answer, by simpa using several,
      whole, built, rfl⟩)

theorem bits_of_pinned {m : Memory} {v : Value} {concrete : UInt64} {place : Expr}
    (pinned : m.pinned v concrete = .ok place) : 0 < m.bits ∧ m.bits ≤ 64 := by
  by_contra beyond
  rw [Memory.pinned, Expr.constant, Word.make, if_neg beyond] at pinned
  cases pinned

section Candidates

variable {l : Layout} {m : Memory} {s : Exhaustive} {address v : Value}
  (conditions : ∀ c ∈ address.constraints, c.Condition)

include conditions

/-- That an address is one of several that it can be is not settled. -/
theorem Sized.pinned_open (sized : Sized l address v) (fits : m.Fits l)
    (several : (Concretizer.possible s v).Nontrivial) {concrete : UInt64}
    (member : concrete ∈ Concretizer.possible s v) :
    Returns (m.pinned v concrete) fun place => place.width = 1 ∧ place.isConst = false := by
  obtain ⟨place, built, states⟩ := pinned_when fits sized concrete
  rw [built]
  refine .ok ⟨states.condition.one_bit, eq_false_of_ne_true fun constant => ?_⟩
  obtain ⟨tag, w, rfl⟩ := Expr.eq_const_of_isConst constant
  obtain ⟨other, otherMember, apart⟩ := several.exists_ne concrete
  obtain ⟨ρ, _, _, here⟩ := (sized.mem_possible conditions).mp member
  obtain ⟨ρ', _, _, there⟩ := (sized.mem_possible conditions).mp otherMember
  -- a constant says the same where the address is the concrete one and where it is another
  have holds := (states.holds_iff ρ).mpr (sized.placed ((sized.meaning_eq ρ).trans here))
  have holds' := (states.holds_iff ρ').mp holds
  have numbers : other.toNat % 2 ^ l.bits.toNat = concrete.toNat % 2 ^ l.bits.toNat := by
    rw [sized.placed ((sized.meaning_eq ρ').trans there)] at holds'
    simpa [Layout.place] using congrArg BitVec.toNat holds'
  rw [← here, ← there, Nat.mod_mod, Nat.mod_mod, here, there] at numbers
  exact apart (UInt64.toNat_inj.mp numbers)

/-- Where a load finds several addresses, they are all that the address can be, in ascending order. -/
theorem Sized.candidates (sized : Sized l address v) (solver : address.solver = some s.solver) {mid mid' : Session}
    {found : Addresses} (answer : m.concretizer.concretize v Strategy.forLoad mid = .ok found mid')
    (several : found.others ≠ []) :
    (Concretizer.possible s v).Nontrivial ∧ found.toList.Pairwise (· < ·) ∧
      ∀ x, x ∈ found.toList ↔ x ∈ Concretizer.possible s v := by
  rcases Concretizer.asks_of_ok (sized.solver_eq.trans solver) sized.wellFormed
    (sized.constraints_eq ▸ conditions) answer with asks | ⟨_, _, _, rfl⟩
  · have right := Concretizer.concretize_forLoad asks m.concretizer mid
    rw [answer] at right
    exact right several
  · cases several rfl

end Candidates

/-- A load that returns a variable of no cell returns one constraint. It is taken apart into one clause
    for each address that is possible, in ascending order: the conjunction of the equality of the
    variable with what is read there and the equality of the address with that one. -/
theorem loadFrom_disjuncts {s : Exhaustive} {m new : Memory} {address : Value} {width : UInt64}
    {session left : Session} {tag : Tag} {r : Var} {constraints : List Expr}
    (solver : address.solver = some s.solver) (wf : address.expr.WellFormed)
    (conditions : ∀ c ∈ address.constraints, c.Condition)
    (done : loadFrom address width (m, session) = .ok (.var tag r, constraints) (new, left))
    (unstored : ¬ new.Mentions r) :
    ∃ start v mid choice candidates, m.sized address start = .ok v mid ∧ constraints = [choice] ∧
      candidates.Pairwise (· < ·) ∧ (∀ x, x ∈ candidates ↔ x ∈ Concretizer.possible s v) ∧
      List.Forall₂ (m.Clause new v (.var tag r) (width / 8).toNat) candidates choice.disjuncts := by
  rcases (loadFrom_drafts m address width session).of_ok done with known |
    ⟨start, v, mid, found, mid', begun, cases_, e, next, sizing, answer, several, drafts, built, rfl⟩
  · exact absurd (known r (List.mem_singleton.mpr rfl)) unstored
  obtain ⟨bits_pos, bits_le⟩ : 0 < m.bits ∧ m.bits ≤ 64 := by
    cases drafts with
    | cons draft _ =>
        obtain ⟨_, _, _, _, ⟨_, _, _, _, _, _, _, pinned⟩, _⟩ := draft
        exact bits_of_pinned pinned
  have fits := settings_fits bits_pos bits_le
  have sized := Ends.of_ok (sized_ensures fits wf start) sizing
  obtain ⟨nontrivial, ascending, all⟩ := sized.candidates conditions solver answer several
  have open_ : ∀ x ∈ found.toList, Returns (m.pinned v x) fun place => place.width = 1 ∧ place.isConst = false :=
    fun x member => sized.pinned_open conditions fits nontrivial ((all x).mp member)
  have settled := ((List.forall₂_and_left _ _).mpr ⟨open_, drafts⟩).imp fun _ _ both =>
    both.2.clause unstored both.1
  obtain ⟨atoms, clauses⟩ := (List.forall₂_and_left cases_ _).mp settled.flip
  have some_ : cases_ ≠ [] := by
    rintro rfl
    cases drafts
  refine ⟨start, v, mid, _, found.toList, sizing, rfl, ascending, all, ?_⟩
  rw [Expr.disjuncts_any some_ atoms next e built]
  exact clauses.flip

/-- Two bytes are loaded from the last address or the first one of a memory of 16 bytes. -/
theorem loadFrom_disjuncts_wrapped :
    let s := Exhaustive.bound {} "x" 15 16
    let address : Value := ⟨some s.solver, [], .var none ⟨"x", 8⟩⟩
    let m : Memory := ⟨4, true, {}, { id := "mem" }⟩
    ∃ tag choice new left v first second,
      loadFrom address 16 (m, {}) = .ok (.var tag ⟨"mem_addr_0", 16⟩, [choice]) (new, left) ∧
      ¬ new.Mentions ⟨"mem_addr_0", 16⟩ ∧ first < second ∧
      (∀ x, x ∈ [first, second] ↔ x ∈ Concretizer.possible s v) ∧
      List.Forall₂ (m.Clause new v (.var tag ⟨"mem_addr_0", 16⟩) 2) [first, second] choice.disjuncts := by
  intro s address m
  let l : Layout := ⟨4, true, .empty, by decide, by decide⟩
  have empty : ∀ place, m.cell? place = none := fun place => Std.TreeMap.getElem?_emptyc
  have fits : m.Fits l := ⟨rfl, rfl, rfl, fun place cell present => by cases (empty place).symm.trans present⟩
  have answer : (returned? (loadFrom address 16 (m, {}))).map
      (fun loaded => (loaded.1.erase, loaded.2.map fun c => c.disjuncts.length)) =
        some (.var none ⟨"mem_addr_0", 16⟩, [2]) := by cbv
  obtain ⟨⟨value, constraints⟩, returned, loaded⟩ := Option.map_eq_some_iff.mp answer
  obtain ⟨⟨new, left⟩, done⟩ := ok_of_returned? returned
  obtain ⟨erased, lengths⟩ := Prod.mk.inj loaded
  obtain ⟨tag, rfl⟩ := Store.eq_var_of_erase erased
  have unstored : ¬ new.Mentions ⟨"mem_addr_0", 16⟩ := by
    intro mentions
    obtain ⟨_, _, _, _, _, draws⟩ := (loadFrom_ends fits (by decide) 16 {}).of_ok done
    obtain ⟨_, ⟨listed, reading⟩, _⟩ := draws.reading
    rcases reading.mentions mentions with ⟨place, cell, present, _⟩ | ⟨i, _, same⟩
    · cases (empty place).symm.trans present
    · cases congrArg Var.width same
  obtain ⟨_, v, _, choice, candidates, _, rfl, ascending, all, clauses⟩ :=
    loadFrom_disjuncts rfl (by decide) (by simp [address]) done unstored
  have two : candidates.length = 2 := clauses.length_eq.trans (List.cons.inj lengths).1
  obtain ⟨first, second, rfl⟩ := List.length_eq_two.mp two
  refine ⟨tag, choice, new, left, v, first, second, done, unstored, ?_, all, clauses⟩
  simpa using ascending

end Memory

end SymbolicMemory
