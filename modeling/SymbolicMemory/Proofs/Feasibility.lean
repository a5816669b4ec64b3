import SymbolicMemory.Proofs.ExactLoad
import SymbolicMemory.Proofs.Replay

/-! # Paths stay feasible

A path is feasible if its constraints can be met with values from the domains of its solver.
Storing and loading add the condition that ties an address to where the access went. The address
is one that the path leaves possible, so the condition can be met together with the constraints;
and a fresh variable is free to take the value that it is to have.

Fresh names are fresh only as long as nothing else uses them. This is part of what a path has to
meet, and accesses keep it: what they add to constraints and cells are variables that were there
before, those of their arguments, and names that the supply has just handed out.
-/

namespace SymbolicMemory

open Names Session

/-- Values within the domains of some variables extend to more variables, if none of these has two
    widths. -/
theorem Exhaustive.exists_within (s : Exhaustive) {known : List Var} {ρ : Valuation}
    (within : s.Within known ρ) {all : Var → Prop}
    (one : ∀ u ∈ known, ∀ v, all v → u.name = v.name → u.width = v.width) :
    ∃ ρ' : Valuation, (∀ v, all v → s.Admits v (ρ' v.name)) ∧ ∀ v ∈ known, ρ' v.name = ρ v.name := by
  let ρ' : Valuation := fun name =>
    if name ∈ known.map Var.name then ρ name else (s.domain ⟨name, 0⟩).lo
  have kept : ∀ v ∈ known, ρ' v.name = ρ v.name := fun v member =>
    if_pos (List.mem_map_of_mem member)
  refine ⟨ρ', fun v isIn => ?_, kept⟩
  by_cases named : v.name ∈ known.map Var.name
  · obtain ⟨u, member, same⟩ := List.mem_map.mp named
    have equal : u = v := by
      cases u
      cases v
      cases same
      cases one _ member _ isIn rfl
      rfl
    subst equal
    rw [kept u member]
    exact within u member
  · have low : ρ' v.name = (s.domain v).lo := (if_neg named).trans (s.domain_lo v).symm
    rw [low]
    exact s.admits_lo v

namespace Path

/-- A variable occurs in a constraint or in a cell. -/
def Mentions (p : Path) (v : Var) : Prop :=
  v ∈ p.constraints.flatMap Expr.occurrences ∨ p.memory.Mentions v

/-- The constraints can be met with values from the domains of a solver. -/
def Feasible (s : Exhaustive) (p : Path) : Prop :=
  ∃ ρ : Valuation, s.Within (p.constraints.flatMap Expr.occurrences) ρ ∧
    ∀ c ∈ p.constraints, c.eval (.total ρ) = .ok (.ofBool true)

/-- A feasible path with an exhaustive search as its solver, on which every name has one width and
    no name occurs, or has a bound, that is yet to be handed out. -/
structure Ready (s : Exhaustive) (l : Layout) (x : Path × Session) : Prop where
  fits : x.1.memory.Fits l
  solver : x.1.solver = some s.solver
  conditions : ∀ c ∈ x.1.constraints, c.Condition
  one : ∀ u v, x.1.Mentions u → x.1.Mentions v → u.name = v.name → u.width = v.width
  unused : ∀ v, x.1.Mentions v → ¬ x.1.memory.Pending x.2 v.name
  unbound : ∀ name, x.1.memory.Pending x.2 name → s.bounds name = none
  feasible : x.1.Feasible s

end Path

/-- A store or a load on a path. -/
inductive Path.Request where
  | store (address value : Expr)
  | load (address : Expr) (width : UInt64)

namespace Path.Request

def arguments : Request → List Expr
  | store address value => [address, value]
  | load address _ => [address]

/-- The variables of the arguments. -/
def vars (r : Request) : List Var := r.arguments.flatMap Expr.occurrences

/-- What the memory of a path is asked to do. Returns the result and the constraints. -/
def underlying (p : Path) : Request → On Memory (Option Expr × List Expr)
  | store address value => do
    let constraints ← Memory.storeAt (p.value address) value
    return (none, constraints)
  | load address width => do
    let (value, constraints) ← Memory.loadFrom (p.value address) width
    return (some value, constraints)

/-- What the path is asked to do. -/
def perform : Request → On Path (Option Expr)
  | store address value => do
    Path.store address value
    return none
  | load address width => do
    let value ← Path.load address width
    return some value

/-- The path after a request, whether it was met or not. -/
def after (x : Path × Session) (r : Request) : Path × Session :=
  match r.perform x with
  | .ok _ left => left
  | .error _ left => left

/-- The arguments of a request are well-formed, agree with the path on the width of every name, and
    use no name that is yet to be handed out; and there are enough names for it. -/
structure Allowed (r : Request) (x : Path × Session) : Prop where
  wellFormed : ∀ e ∈ r.arguments, e.WellFormed
  one : ∀ u v, x.1.Mentions u ∨ u ∈ r.vars → x.1.Mentions v ∨ v ∈ r.vars →
    u.name = v.name → u.width = v.width
  unused : ∀ v ∈ r.vars, ¬ x.1.memory.Pending x.2 v.name
  bytes : ∀ result m left, r.underlying x.1 (x.1.memory, x.2) = .ok result (m, left) →
    (x.2.supplied x.1.memory.store.supply).vars.toNat + (left.freshBytes - x.2.freshBytes) < 2 ^ 64
  values : (x.2.supplied x.1.memory.store.supply).addrs.toNat + 1 < 2 ^ 64

/-- A variable of the path or of the request. -/
abbrev Old (r : Request) (x : Path × Session) (v : Var) : Prop := x.1.Mentions v ∨ v ∈ r.vars

end Path.Request

namespace Memory

variable (m : Memory) (session left : Session) (bytes : Nat) (value : Option UInt64)

/-- A variable with a name that is handed out next, if these are for some bytes and perhaps for a
    value of some width. -/
def Fresh (v : Var) : Prop :=
  (∃ i < bytes, v = ⟨byteName m.id ((session.supplied m.store.supply).vars + UInt64.ofNat i), 8⟩) ∨
    ∃ width, value = some width ∧ v = ⟨m.nextValue session, width⟩

/-- The supply of a memory handed out names for some bytes and perhaps for a value. -/
structure Supplied : Prop where
  vars : (left.supplied m.store.supply).vars =
    (session.supplied m.store.supply).vars + UInt64.ofNat bytes
  addrs : (left.supplied m.store.supply).addrs =
    (session.supplied m.store.supply).addrs + if value.isSome then 1 else 0
  freshBytes : left.freshBytes = session.freshBytes + bytes

variable {m session left bytes value}

theorem Fresh.one {u v : Var} (hu : m.Fresh session bytes value u) (hv : m.Fresh session bytes value v)
    (same : u.name = v.name) : u.width = v.width := by
  rcases hu with ⟨i, _, rfl⟩ | ⟨width, isValue, rfl⟩
  · rcases hv with ⟨j, _, rfl⟩ | ⟨width, _, rfl⟩
    · rfl
    · exact absurd same (byteName_ne_valueName _ _ _)
  · rcases hv with ⟨j, _, rfl⟩ | ⟨width', isValue', rfl⟩
    · exact absurd same.symm (byteName_ne_valueName _ _ _)
    · cases isValue.symm.trans isValue'
      rfl

section Room

variable (room : (session.supplied m.store.supply).vars.toNat + bytes < 2 ^ 64)

include room

theorem vars_add {i : Nat} (le : i ≤ bytes) :
    ((session.supplied m.store.supply).vars + UInt64.ofNat i).toNat =
      (session.supplied m.store.supply).vars.toNat + i := by
  rw [UInt64.toNat_add, UInt64.toNat_ofNat_of_lt' (show i < 2 ^ 64 by omega)]
  exact Nat.mod_eq_of_lt (by omega)

theorem Fresh.pending {v : Var} (fresh : m.Fresh session bytes value v) : m.Pending session v.name := by
  rcases fresh with ⟨i, less, rfl⟩ | ⟨width, _, rfl⟩
  · refine .inl ⟨_, ?_, rfl⟩
    rw [UInt64.le_iff_toNat_le, vars_add room (Nat.le_of_lt less)]
    exact Nat.le_add_right _ _
  · exact .inr ⟨_, UInt64.le_refl _, rfl⟩

variable (values : (session.supplied m.store.supply).addrs.toNat + 1 < 2 ^ 64)
  (supplied : m.Supplied session left bytes value)

include values supplied

omit room in
theorem Supplied.addrs_toNat : (left.supplied m.store.supply).addrs.toNat =
    (session.supplied m.store.supply).addrs.toNat + if value.isSome then 1 else 0 := by
  rw [supplied.addrs]
  split
  · rw [UInt64.toNat_add]
    exact Nat.mod_eq_of_lt values
  · rw [UInt64.add_zero, Nat.add_zero]

/-- What is yet to be handed out was so before, and is none of what was handed out. -/
theorem Supplied.pending {name : String} (later : m.Pending left name) :
    m.Pending session name ∧ ∀ v, m.Fresh session bytes value v → v.name ≠ name := by
  have vars_toNat := vars_add room (Nat.le_refl bytes)
  rw [← supplied.vars] at vars_toNat
  have addrs_toNat := supplied.addrs_toNat values
  rcases later with ⟨n, le, rfl⟩ | ⟨n, le, rfl⟩
  · rw [UInt64.le_iff_toNat_le] at le
    refine ⟨.inl ⟨n, UInt64.le_iff_toNat_le.mpr (by omega), rfl⟩, ?_⟩
    rintro v (⟨i, less, rfl⟩ | ⟨width, _, rfl⟩) same
    · rw [← byteName_inj same, vars_add room (Nat.le_of_lt less)] at le
      omega
    · exact byteName_ne_valueName _ _ _ same.symm
  · rw [UInt64.le_iff_toNat_le] at le
    refine ⟨.inr ⟨n, UInt64.le_iff_toNat_le.mpr (by omega), rfl⟩, ?_⟩
    rintro v (⟨i, less, rfl⟩ | ⟨width, isValue, rfl⟩) same
    · exact byteName_ne_valueName _ _ _ same
    · rw [isValue, Option.isSome_some, if_pos rfl] at addrs_toNat
      rw [← valueName_inj same] at le
      omega

end Room

/-- On a feasible path, the constraints can be met where an address is the first one that was found,
    with values for any further variables. -/
theorem Resolved.exists_first {s : Exhaustive} {l : Layout} {address v : Value} {strategies : List Strategy}
    {mid : Session} {found : Addresses} (resolved : Resolved l m address strategies session v found mid)
    (known : ∀ name, .unknown name ∉ strategies) (solver : address.solver = some s.solver)
    (conditions : ∀ c ∈ address.constraints, c.Condition) {ρ : Valuation}
    (within : s.Within (address.constraints.flatMap Expr.occurrences) ρ)
    (holds : Holds ρ address.constraints) {all : Var → Prop}
    (one : ∀ u v, all u → all v → u.name = v.name → u.width = v.width)
    (covers : ∀ u ∈ (address.expr :: address.constraints).flatMap Expr.occurrences, all u) :
    ∃ ρ' : Valuation, (∀ u, all u → s.Admits u (ρ' u.name)) ∧ Holds ρ' address.constraints ∧
      BitVec.ofNat l.bits.toNat (address.expr.meaning ρ') = l.place found.first := by
  have sized := resolved.sized
  have possible : found.first ∈ Concretizer.possible s v := by
    rcases resolved.oneOrAll known solver conditions within holds with ⟨x, possible, single⟩ | every
    · rw [(List.cons.inj single).1]
      exact possible
    · exact (every _).mp List.mem_cons_self
  obtain ⟨ρ₀, inside, holds₀, value⟩ := (sized.mem_possible conditions).mp possible
  have covers' : ∀ u ∈ (v.expr :: address.constraints).flatMap Expr.occurrences, all u := by
    intro u occurs
    rcases List.mem_append.mp occurs with inAddress | inConstraints
    · exact covers u (List.mem_append_left _ (sized.vars_subset inAddress))
    · exact covers u (List.mem_append_right _ inConstraints)
  obtain ⟨ρ', admitted, same⟩ := s.exists_within inside fun u member w isIn =>
    one u w (covers' u member) isIn
  refine ⟨ρ', admitted, fun c member => ?_, sized.placed ?_⟩
  · rw [← holds₀ c member]
    exact Expr.meaning_congr fun u occurs =>
      same u (List.mem_append_right _ (List.mem_flatMap.mpr ⟨c, member, occurs⟩))
  · rw [← value, ← sized.meaning_eq]
    exact Expr.meaning_congr fun u occurs => same u (List.mem_append_left _ occurs)

end Memory

namespace Path.Request

/-- What the memory of a path has done: one condition, which can be met together with the constraints
    of the path, and no variables but old and fresh ones. -/
structure Answered (s : Exhaustive) (l : Layout) (r : Request) (x : Path × Session) (c : Expr)
    (m : Memory) (left : Session) : Prop where
  fits : m.Fits l
  settings_eq : m.settings = x.1.memory.settings
  condition : c.Condition
  drawn : ∃ bytes value, x.1.memory.Supplied x.2 left bytes value ∧
    ∀ v, m.Mentions v ∨ v ∈ c.occurrences → r.Old x v ∨ x.1.memory.Fresh x.2 bytes value v
  possible : ∃ ρ, s.Within ((c :: x.1.constraints).flatMap Expr.occurrences) ρ ∧
    Holds ρ (c :: x.1.constraints)

variable {s : Exhaustive} {l : Layout} {x : Path × Session} {r : Request}

theorem Allowed.old_unused (ready : Path.Ready s l x) (allowed : r.Allowed x) {v : Var} (old : r.Old x v) :
    ¬ x.1.memory.Pending x.2 v.name := by
  rcases old with mentioned | argument
  · exact ready.unused v mentioned
  · exact allowed.unused v argument

/-- Old and fresh variables have one width for each name. -/
theorem Allowed.one_fresh (ready : Path.Ready s l x) (allowed : r.Allowed x) {bytes : Nat}
    {value : Option UInt64} (room : (x.2.supplied x.1.memory.store.supply).vars.toNat + bytes < 2 ^ 64)
    (u v : Var) (hu : r.Old x u ∨ x.1.memory.Fresh x.2 bytes value u)
    (hv : r.Old x v ∨ x.1.memory.Fresh x.2 bytes value v) (same : u.name = v.name) :
    u.width = v.width := by
  rcases hu with oldU | freshU
  · rcases hv with oldV | freshV
    · exact allowed.one u v oldU oldV same
    · exact absurd (same ▸ freshV.pending room) (allowed.old_unused ready oldU)
  · rcases hv with oldV | freshV
    · exact absurd (same ▸ freshU.pending room) (allowed.old_unused ready oldV)
    · exact freshU.one freshV same

theorem store_answered {address value : Expr} (ready : Path.Ready s l x)
    (allowed : (store address value).Allowed x) :
    Ends ((store address value).underlying x.1) (x.1.memory, x.2)
      (fun (_, constraints) (m, left) => ∃ c, constraints = [c] ∧
        Answered s l (store address value) x c m left)
      (fun _ (m, left) => m = x.1.memory ∧ Quiet x.2 left) := by
  have wf : (x.1.value address).expr.WellFormed := allowed.wellFormed address List.mem_cons_self
  have valueWf : value.WellFormed :=
    allowed.wellFormed value (List.mem_cons_of_mem _ (List.mem_singleton.mpr rfl))
  refine (Memory.storeAt_ends ready.fits wf valueWf x.2).bind (fun _ _ h => h) ?_
  rintro constraints ⟨m, left⟩ ⟨v, found, mid, resolved, ⟨c, rfl, placed⟩, quiet⟩
  refine .pure ⟨c, rfl, placed.writes.fits, placed.writes.settings_eq, placed.states.condition,
    ⟨0, none, ⟨?_, ?_, quiet.freshBytes⟩, ?_⟩, ?_⟩
  · rw [quiet.supplied]
    exact (UInt64.add_zero _).symm
  · rw [quiet.supplied]
    exact (UInt64.add_zero _).symm
  · rintro u (mentions | occurs)
    · rcases placed.writes.mentioned u mentions with before | inside
      · exact .inl (.inl (.inr before))
      · exact .inl (.inr (by simp [vars, arguments, inside]))
    · exact .inl (.inr (List.mem_append_left _ (placed.states.vars_subset occurs)))
  · obtain ⟨ρ, within, satisfied⟩ := ready.feasible
    have covers : ∀ u ∈ (address :: x.1.constraints).flatMap Expr.occurrences,
        (store address value).Old x u := by
      intro u occurs
      rcases List.mem_append.mp occurs with inAddress | inConstraints
      · exact .inr (List.mem_append_left _ inAddress)
      · exact .inl (.inl inConstraints)
    obtain ⟨ρ', admitted, holds, here⟩ := resolved.exists_first (by simp [Strategy.forStore]) ready.solver
      ready.conditions within ((Exhaustive.holds_iff ready.conditions ρ).mp satisfied) allowed.one covers
    refine ⟨ρ', fun u occurs => admitted u ?_, List.forall_mem_cons.mpr ⟨?_, holds⟩⟩
    · rcases List.mem_append.mp occurs with inCondition | inConstraints
      · exact .inr (List.mem_append_left _ (placed.states.vars_subset inCondition))
      · exact .inl (.inl inConstraints)
    · exact (placed.states.holds_iff ρ').mpr here

/-- What a load draws, seen from the session before it. -/
theorem load_fresh {m new : Memory} {session mid left : Session} {width : UInt64} {found : Addresses}
    {value : Expr} (quiet : Quiet session mid) (draws : m.LoadDraws mid found width value new left) :
    new.settings = m.settings ∧
      ∃ bytes, m.Supplied session left bytes (if found.others = [] then none else some width) ∧
        ∀ v, new.Mentions v → m.Mentions v ∨ m.Fresh session bytes none v := by
  obtain ⟨start, ⟨listed, reading⟩, fresh, supplied⟩ := draws.reading
  have vars : (start.supplied m.store.supply).vars = (session.supplied m.store.supply).vars := by
    rw [supplied, quiet.supplied]
  refine ⟨reading.settings_eq, listed.length, ⟨?_, ?_, ?_⟩, fun v mentions => ?_⟩
  · rw [reading.supplied, vars]
  · rw [reading.supplied, supplied, quiet.supplied]
    split <;> rfl
  · rw [reading.freshBytes, fresh, quiet.freshBytes]
  · rcases reading.mentions mentions with before | ⟨i, less, rfl⟩
    · exact .inl before
    · exact .inr (.inl ⟨i, less, by rw [vars]⟩)

section Load

variable {address : Expr} {width : UInt64} (ready : Path.Ready s l x)
  (allowed : (load address width).Allowed x) {v : Value} {found : Addresses} {mid : Session}
  (resolved : x.1.memory.Resolved l (x.1.value address) Strategy.forLoad x.2 v found mid)
  {value c : Expr} {m : Memory}
  (obtained : x.1.memory.Obtained l (x.1.value address) width found value c m) {bytes : Nat}
  (room : (x.2.supplied x.1.memory.store.supply).vars.toNat + bytes < 2 ^ 64)
  (mentioned : ∀ u, m.Mentions u → x.1.memory.Mentions u ∨ x.1.memory.Fresh x.2 bytes none u)

include ready allowed resolved obtained room mentioned

/-- The condition of a load can be met: where the address is the first one that was found, a fresh
    variable takes the value that stands there. -/
theorem load_possible
    (named : found.others ≠ [] → ∃ tag, value = .var tag ⟨x.1.memory.nextValue x.2, width⟩) :
    ∃ ρ, s.Within ((c :: x.1.constraints).flatMap Expr.occurrences) ρ ∧
      Holds ρ (c :: x.1.constraints) := by
  obtain ⟨ρ, within, satisfied⟩ := ready.feasible
  have covers : ∀ u ∈ (address :: x.1.constraints).flatMap Expr.occurrences,
      (load address width).Old x u ∨ x.1.memory.Fresh x.2 bytes none u := by
    intro u occurs
    rcases List.mem_append.mp occurs with inAddress | inConstraints
    · exact .inl (.inr (List.mem_append_left _ inAddress))
    · exact .inl (.inl (.inl inConstraints))
  have covers' : ∀ u, m.Mentions u →
      (load address width).Old x u ∨ x.1.memory.Fresh x.2 bytes none u := fun u mentions =>
    (mentioned u mentions).imp_left fun before => .inl (.inr before)
  obtain ⟨ρ', admitted, holds, here⟩ := resolved.exists_first (by simp [Strategy.forLoad]) ready.solver
    ready.conditions within ((Exhaustive.holds_iff ready.conditions ρ).mp satisfied)
    (allowed.one_fresh ready room) covers
  have shows_ := Memory.shows_shown obtained.grows.fits ρ'
  rcases obtained.origin with ⟨_, fetched⟩ | ⟨many, _⟩
  · refine ⟨ρ', fun u occurs => admitted u ?_, List.forall_mem_cons.mpr ⟨?_, holds⟩⟩
    · rcases List.mem_append.mp occurs with inCondition | inConstraints
      · rcases obtained.mentioned u inCondition with inAddress | inValue | mentions
        · exact covers u (List.mem_append_left _ inAddress)
        · exact covers' u (fetched.mentioned u inValue)
        · exact covers' u mentions
      · exact covers u (List.mem_append_right _ inConstraints)
    · rw [obtained.holds_at shows_ List.mem_cons_self here]
      exact fetched.meaning_eq ρ' _ shows_
  · obtain ⟨tag, rfl⟩ := named many
    have pending : x.1.memory.Pending x.2 (x.1.memory.nextValue x.2) := .inr ⟨_, UInt64.le_refl _, rfl⟩
    have apart : ∀ u, (load address width).Old x u ∨ x.1.memory.Fresh x.2 bytes none u →
        u.name ≠ x.1.memory.nextValue x.2 := by
      rintro u (old | ⟨i, _, rfl⟩ | ⟨_, no, _⟩) same
      · exact allowed.old_unused ready old (same ▸ pending)
      · exact byteName_ne_valueName _ _ _ same
      · cases no
    obtain ⟨y, y_eq, y_lt⟩ := ByteMemory.exists_decode_read l.littleEndian (m.shown l ρ')
      (l.place found.first) (obtained.wellFormed.2 : width ≤ 64)
    have kept : ∀ u, (load address width).Old x u ∨ x.1.memory.Fresh x.2 bytes none u →
        ρ' u.name = Function.update ρ' (x.1.memory.nextValue x.2) y u.name :=
      fun u isIn => (Function.update_of_ne (apart u isIn) y ρ').symm
    have stays : ∀ u, (load address width).Old x u ∨ x.1.memory.Fresh x.2 bytes none u →
        s.Admits u (Function.update ρ' (x.1.memory.nextValue x.2) y u.name) :=
      fun u isIn => kept u isIn ▸ admitted u isIn
    refine ⟨Function.update ρ' (x.1.memory.nextValue x.2) y, fun u occurs => ?_,
      List.forall_mem_cons.mpr ⟨?_, fun c' member => ?_⟩⟩
    · rcases List.mem_append.mp occurs with inCondition | inConstraints
      · rcases obtained.mentioned u inCondition with inAddress | inValue | mentions
        · exact stays u (covers u (List.mem_append_left _ inAddress))
        · rw [List.mem_singleton.mp inValue, Function.update_self, Exhaustive.Admits,
            ready.unbound _ pending]
          exact y_lt
        · exact stays u (covers' u mentions)
      · exact stays u (covers u (List.mem_append_right _ inConstraints))
    · exact (obtained.holds_update (fun u occurs => apart u (covers u (List.mem_append_left _ occurs)))
        (fun u mentions => apart u (covers' u mentions)) shows_ List.mem_cons_self here y_lt).mpr y_eq
    · rw [← holds c' member]
      exact (Expr.meaning_congr fun u occurs =>
        kept u (covers u (List.mem_append_right _ (List.mem_flatMap.mpr ⟨c', member, occurs⟩)))).symm

end Load

theorem load_answered {address : Expr} {width : UInt64} (ready : Path.Ready s l x)
    (allowed : (load address width).Allowed x) :
    Ends ((load address width).underlying x.1) (x.1.memory, x.2)
      (fun (_, constraints) (m, left) => ∃ c, constraints = [c] ∧
        Answered s l (load address width) x c m left)
      (fun _ (m, left) => m = x.1.memory ∧ Quiet x.2 left) := by
  have wf : (x.1.value address).expr.WellFormed := allowed.wellFormed address List.mem_cons_self
  have ends := Memory.loadFrom_ends ready.fits wf width x.2
  refine .intro ?_ fun e left failed => ?_
  · rintro ⟨result, constraints⟩ ⟨m, left⟩ done
    have room := allowed.bytes _ _ _ done
    obtain ⟨⟨value, _⟩, _, loaded, same⟩ := ok_of_bind done
    cases same
    obtain ⟨v, found, mid, resolved, ⟨c, rfl, obtained⟩, draws⟩ := ends.of_ok loaded
    obtain ⟨settings_eq, bytes, supplied, mentioned⟩ := load_fresh resolved.quiet draws
    rw [supplied.freshBytes, Nat.add_sub_cancel_left] at room
    have named : found.others ≠ [] → ∃ tag, value = .var tag ⟨x.1.memory.nextValue x.2, width⟩ := by
      intro many
      obtain ⟨tag, same⟩ := draws.many many
      rw [Memory.nextValue, resolved.quiet.supplied] at same
      exact ⟨tag, same⟩
    have cells : ∀ u, m.Mentions u → (load address width).Old x u ∨
        x.1.memory.Fresh x.2 bytes (if found.others = [] then none else some width) u := by
      intro u mentions
      rcases mentioned u mentions with before | ⟨i, less, rfl⟩ | ⟨_, no, _⟩
      · exact .inl (.inl (.inr before))
      · exact .inr (.inl ⟨i, less, rfl⟩)
      · cases no
    refine ⟨c, rfl, obtained.grows.fits, settings_eq, obtained.condition, ⟨bytes, _, supplied, ?_⟩,
      load_possible ready allowed resolved obtained room mentioned named⟩
    rintro u (mentions | occurs)
    · exact cells u mentions
    rcases obtained.mentioned u occurs with inAddress | inValue | mentions
    · exact .inl (.inr (List.mem_append_left _ inAddress))
    · rcases obtained.origin with ⟨_, fetched⟩ | ⟨many, _⟩
      · exact cells u (fetched.mentioned u inValue)
      · obtain ⟨tag, rfl⟩ := named many
        rw [List.mem_singleton.mp inValue, if_neg many]
        exact .inr (.inr ⟨width, rfl, rfl⟩)
    · exact cells u mentions
  · rcases error_of_bind failed with failed | ⟨_, _, _, no⟩
    · exact ends.of_error failed
    · cases no

theorem underlying_answered (ready : Path.Ready s l x) (allowed : r.Allowed x) :
    Ends (r.underlying x.1) (x.1.memory, x.2)
      (fun (_, constraints) (m, left) => ∃ c, constraints = [c] ∧ Answered s l r x c m left)
      (fun _ (m, left) => m = x.1.memory ∧ Quiet x.2 left) := by
  cases r with
  | store address value => exact store_answered ready allowed
  | load address width => exact load_answered ready allowed

end Path.Request

namespace Path

theorem constrain_subset {p new : Path} {e : Expr} (added : p.constrain e = .ok new) :
    new.memory = p.memory ∧ new.solver = p.solver ∧
      ∀ c ∈ new.constraints, c ∈ p.constraints ∨ c ∈ e.conjuncts := by
  unfold constrain at added
  split at added
  · split at added
    · cases added
      exact ⟨rfl, rfl, fun _ => .inl⟩
    · cases added
  · cases added
    exact ⟨rfl, rfl, fun _ => List.mem_append.mp⟩

theorem assumeAll_eq {p new : Path} {c : Expr} (added : p.constrain c = .ok new) (session : Session) :
    ([c].forM assume : On Path Unit) (p, session) = .ok () (new, session) := by
  have assumed : assume c (p, session) = .ok () (new, session) := by
    simp only [assume, On.thing, bind, EStateM.bind, added]
    rfl
  have one : ([c].forM assume : On Path Unit) = (assume c >>= fun _ => pure ()) := rfl
  simp only [one, bind, EStateM.bind, assumed]
  rfl

end Path

namespace Path.Request

variable {s : Exhaustive} {l : Layout} {x : Path × Session} {r : Request}

/-- A path does what its memory does, and adds the constraint. -/
theorem perform_ok {p new : Path} {session left : Session} {result : Option Expr} {c : Expr} {m : Memory}
    (done : r.underlying p (p.memory, session) = .ok (result, [c]) (m, left))
    (added : { p with memory := m }.constrain c = .ok new) :
    r.perform (p, session) = .ok result (new, left) := by
  have assumed := Path.assumeAll_eq added left
  cases r with
  | store address value =>
      obtain ⟨constraints, _, stored, same⟩ := ok_of_bind done
      cases same
      simp only [perform, Path.store, Path.onMemory, On.part, On.thing, bind, EStateM.bind, stored, assumed]
      rfl
  | load address width =>
      obtain ⟨⟨value, constraints⟩, _, loaded, same⟩ := ok_of_bind done
      cases same
      simp only [perform, Path.load, Path.onMemory, On.part, On.thing, bind, EStateM.bind, loaded, assumed]
      rfl

theorem perform_error {p : Path} {session left : Session} {e : Failure} {m : Memory}
    (failed : r.underlying p (p.memory, session) = .error e (m, left)) :
    r.perform (p, session) = .error e ({ p with memory := m }, left) := by
  cases r with
  | store address value =>
      rcases error_of_bind failed with failed | ⟨_, _, _, no⟩
      · simp only [perform, Path.store, Path.onMemory, On.part, On.thing, bind, EStateM.bind, failed]
      · cases no
  | load address width =>
      rcases error_of_bind failed with failed | ⟨_, _, _, no⟩
      · simp only [perform, Path.load, Path.onMemory, On.part, On.thing, bind, EStateM.bind, failed]
      · cases no

theorem pending_of_settings {m m' : Memory} (same : m'.settings = m.settings) {session : Session}
    {name : String} : m'.Pending session name ↔ m.Pending session name := by
  rw [Memory.Pending, Memory.Pending, Memory.supply_of_settings same, Memory.id_of_settings same]

section Step

variable (ready : Path.Ready s l x) (allowed : r.Allowed x)

include ready

/-- A path on which nothing changed, and no name was drawn, is as ready as before. -/
theorem ready_of_quiet {left : Session} (quiet : Quiet x.2 left) : Path.Ready s l (x.1, left) := by
  have pending : ∀ name, x.1.memory.Pending left name → x.1.memory.Pending x.2 name := by
    intro name later
    rw [Memory.Pending, quiet.supplied] at later
    exact later
  exact ⟨ready.fits, ready.solver, ready.conditions, ready.one,
    fun v mentions later => ready.unused v mentions (pending _ later),
    fun name later => ready.unbound name (pending name later), ready.feasible⟩

include allowed

theorem Answered.path_ready {c : Expr} {m : Memory} {left : Session} (answered : Answered s l r x c m left)
    (room : (x.2.supplied x.1.memory.store.supply).vars.toNat + (left.freshBytes - x.2.freshBytes) < 2 ^ 64)
    {new : Path} (added : { x.1 with memory := m }.constrain c = .ok new) : Path.Ready s l (new, left) := by
  obtain ⟨memory_eq, solver_eq, origin⟩ := Path.constrain_subset added
  have memory_eq : new.memory = m := memory_eq
  obtain ⟨bytes, value, supplied, drawn⟩ := answered.drawn
  rw [supplied.freshBytes, Nat.add_sub_cancel_left] at room
  obtain ⟨parts, together⟩ := answered.condition.conjuncts
  have inConstraints : ∀ v ∈ new.constraints.flatMap Expr.occurrences,
      v ∈ (c :: x.1.constraints).flatMap Expr.occurrences := by
    intro v occurs
    obtain ⟨c', member, occurs⟩ := List.mem_flatMap.mp occurs
    rcases origin c' member with before | part
    · exact List.mem_append_right _ (List.mem_flatMap.mpr ⟨c', before, occurs⟩)
    · exact List.mem_append_left _ (Expr.conjuncts_vars part occurs)
  have mentioned : ∀ v, new.Mentions v → r.Old x v ∨ x.1.memory.Fresh x.2 bytes value v := by
    rintro v (occurs | inMemory)
    · rcases List.mem_append.mp (inConstraints v occurs) with inCondition | before
      · exact drawn v (.inr inCondition)
      · exact .inl (.inl (.inl before))
    · exact drawn v (.inl (memory_eq ▸ inMemory))
  have earlier : ∀ name, new.memory.Pending left name → x.1.memory.Pending x.2 name ∧
      ∀ v, x.1.memory.Fresh x.2 bytes value v → v.name ≠ name := by
    intro name later
    rw [memory_eq, pending_of_settings answered.settings_eq] at later
    exact supplied.pending room allowed.values later
  have conditions : ∀ c' ∈ new.constraints, c'.Condition := by
    intro c' member
    rcases origin c' member with before | part
    · exact ready.conditions c' before
    · exact parts c' part
  refine ⟨memory_eq ▸ answered.fits, solver_eq.trans ready.solver, conditions, ?_, ?_, ?_, ?_⟩
  · intro u v hu hv same
    exact allowed.one_fresh ready room u v (mentioned u hu) (mentioned v hv) same
  · intro v mentions later
    obtain ⟨before, others⟩ := earlier v.name later
    rcases mentioned v mentions with old | fresh
    · exact allowed.old_unused ready old before
    · exact others v fresh rfl
  · intro name later
    exact ready.unbound name (earlier name later).1
  · obtain ⟨ρ, within, holds⟩ := answered.possible
    obtain ⟨here, before⟩ := List.forall_mem_cons.mp holds
    refine ⟨ρ, fun v occurs => within v (inConstraints v occurs), ?_⟩
    refine (Exhaustive.holds_iff conditions ρ).mpr fun c' member => ?_
    rcases origin c' member with old | part
    · exact before c' old
    · exact (together ρ).mpr here c' part

/-- What a request does to a path: if the memory meets it then so does the path, and the path is
    ready for more in any case. -/
theorem step_ready : Path.Ready s l (after x r) ∧
    ∀ (result : Option Expr) (constraints : List Expr) (m : Memory) (left : Session),
      r.underlying x.1 (x.1.memory, x.2) = .ok (result, constraints) (m, left) →
      ∃ p, r.perform x = .ok result (p, left) ∧ p.memory = m ∧ p.Feasible s := by
  have ends := underlying_answered ready allowed
  cases outcome : r.underlying x.1 (x.1.memory, x.2) with
  | error e failed =>
      obtain ⟨m, left⟩ := failed
      obtain ⟨rfl, quiet⟩ := ends.of_error outcome
      refine ⟨?_, fun _ _ _ _ no => by cases no⟩
      rw [after, show r.perform x = _ from perform_error outcome]
      exact ready_of_quiet ready quiet
  | ok answer done =>
      obtain ⟨result, constraints⟩ := answer
      obtain ⟨m, left⟩ := done
      obtain ⟨c, rfl, answered⟩ := ends.of_ok outcome
      obtain ⟨ρ, _, holds⟩ := answered.possible
      obtain ⟨new, added⟩ := Path.constrain_of_possible answered.condition
        ⟨ρ, holds c List.mem_cons_self⟩ { x.1 with memory := m }
      have performed : r.perform x = .ok result (new, left) := perform_ok outcome added
      have now := answered.path_ready ready allowed (allowed.bytes _ _ _ outcome) added
      refine ⟨?_, ?_⟩
      · rw [after, performed]
        exact now
      · rintro _ _ _ _ ⟨⟩
        exact ⟨new, performed, (Path.constrain_subset added).1, now.feasible⟩

end Step

/-- A path after requests, one after the other. -/
def run (x : Path × Session) (requests : List Request) : Path × Session := requests.foldl after x

theorem run_ready (ready : Path.Ready s l x) {requests : List Request}
    (allowed : ∀ (before : List Request) (r : Request) (later : List Request),
      requests = before ++ r :: later → r.Allowed (run x before)) :
    Path.Ready s l (run x requests) := by
  induction requests generalizing x with
  | nil => exact ready
  | cons r rest ih =>
      have first := (step_ready ready (allowed [] r rest rfl)).1
      refine ih first fun before r' later split => ?_
      exact allowed (r :: before) r' later (congrArg (r :: ·) split)

/-- A feasible path stays feasible. Along every run of allowed requests, whenever the memory meets
    a request so does the path, with the same result, and its constraints can be met again. -/
theorem run_stays_feasible (ready : Path.Ready s l x) {requests : List Request}
    (allowed : ∀ (before : List Request) (r : Request) (later : List Request),
      requests = before ++ r :: later → r.Allowed (run x before)) :
    (∀ before later : List Request, requests = before ++ later → (run x before).1.Feasible s) ∧
      ∀ (before : List Request) (r : Request) (later : List Request), requests = before ++ r :: later →
        ∀ (result : Option Expr) (constraints : List Expr) (m : Memory) (left : Session),
        r.underlying (run x before).1 ((run x before).1.memory, (run x before).2) =
          .ok (result, constraints) (m, left) →
        ∃ p, r.perform (run x before) = .ok result (p, left) ∧ p.memory = m ∧ p.Feasible s := by
  have reached : ∀ before later : List Request, requests = before ++ later →
      Path.Ready s l (run x before) := by
    intro before later split
    refine run_ready ready fun before' r later' split' => ?_
    refine allowed before' r (later' ++ later) ?_
    rw [split, split', List.append_assoc, List.cons_append]
  refine ⟨fun before later split => (reached before later split).feasible, ?_⟩
  intro before r later split
  exact (step_ready (reached before _ split) (allowed before r later split)).2

/-- Two bytes are loaded from one of two addresses, and another byte is stored at the address. -/
theorem run_stays_feasible_loaded :
    let s := Exhaustive.bound {} "x" 1 2
    let m : Memory := ⟨4, true, {}, { id := "mem" }⟩
    let start : Path × Session := ({ id := 1, solver := some s.solver, memory := m }, {})
    let address : Expr := .var none ⟨"x", 4⟩
    let requests := [load address 16, store address (.const none ⟨7, 8⟩)]
    (run start requests).1.constraints.length = 2 ∧ (run start requests).1.Feasible s := by
  intro s m start address requests
  let l : Layout := ⟨4, true, .empty, by decide, by decide⟩
  have empty : ∀ place, m.cell? place = none := fun place => Std.TreeMap.getElem?_emptyc
  have unmentioned : ∀ v, ¬ start.1.Mentions v := by
    rintro v (occurs | ⟨place, cell, present, _⟩)
    · cases occurs
    · rw [show start.1.memory = m from rfl, empty] at present
      cases present
  have long : ∀ name, start.1.memory.Pending start.2 name → name ≠ "x" := by
    rintro name (⟨n, _, rfl⟩ | ⟨n, _, rfl⟩) same
    · have lengths := congrArg String.length same
      have four : (start.1.memory.id ++ "_").length = 4 := by cbv
      rw [byteName, String.length_append, four, show "x".length = 1 from rfl] at lengths
      omega
    · have lengths := congrArg String.length same
      have nine : (start.1.memory.id ++ "_addr_").length = 9 := by cbv
      rw [valueName, String.length_append, nine, show "x".length = 1 from rfl] at lengths
      omega
  have ready : Path.Ready s l start := by
    refine ⟨⟨rfl, rfl, rfl, ?_⟩, rfl, by simp [start], fun u _ hu => absurd hu (unmentioned u),
      fun v hv => absurd hv (unmentioned v), ?_, fun _ => 0, by simp [start, Exhaustive.Within], by simp [start]⟩
    · intro place cell present
      rw [show start.1.memory = m from rfl, empty] at present
      cases present
    · intro name pending
      exact if_neg (long name pending)
  have loads : (load address 16).Allowed start := by
    have only : ∀ v, start.1.Mentions v ∨ v ∈ (load address 16).vars → v = ⟨"x", 4⟩ := by
      rintro v (mentions | occurs)
      · exact absurd mentions (unmentioned v)
      · exact List.mem_singleton.mp occurs
    have check : Ends ((load address 16).underlying start.1) (start.1.memory, start.2)
        (fun _ left => left.2.freshBytes ≤ 3) (fun _ _ => True) := of_decide_eq_true (by cbv)
    refine ⟨by decide, fun u v hu hv _ => by rw [only u hu, only v hv], ?_, ?_, by decide⟩
    · intro v occurs pending
      exact long _ pending (congrArg Var.name (only v (.inr occurs)))
    · intro result m left done
      have few : left.freshBytes ≤ 3 := check.of_ok done
      have zero : (start.2.supplied start.1.memory.store.supply).vars.toNat = 0 := rfl
      omega
  have stores : (store address (.const none ⟨7, 8⟩)).Allowed (after start (load address 16)) := by
    have now := (step_ready ready loads).1
    have occurs : ⟨"x", 4⟩ ∈ (after start (load address 16)).1.constraints.flatMap Expr.occurrences :=
      of_decide_eq_true (by cbv)
    have check : Ends ((store address (.const none ⟨7, 8⟩)).underlying (after start (load address 16)).1)
        ((after start (load address 16)).1.memory, (after start (load address 16)).2)
        (fun _ left => left.2.freshBytes ≤ 3) (fun _ _ => True) := of_decide_eq_true (by cbv)
    have numbers : (after start (load address 16)).2.supplied
        (after start (load address 16)).1.memory.store.supply = ⟨3, 1⟩ := by cbv
    revert now occurs check numbers
    generalize after start (load address 16) = x
    intro now occurs check numbers
    have known : ∀ v, x.1.Mentions v ∨ v ∈ (store address (.const none ⟨7, 8⟩)).vars → x.1.Mentions v := by
      rintro v (known | argument)
      · exact known
      · exact .inl (List.mem_singleton.mp argument ▸ occurs)
    refine ⟨by decide, fun u v hu hv => now.one u v (known u hu) (known v hv),
      fun v occurs => now.unused v (known v (.inr occurs)), ?_, ?_⟩
    · intro result m left done
      have few : left.freshBytes ≤ 3 := check.of_ok done
      have three : (x.2.supplied x.1.memory.store.supply).vars.toNat = 3 := by
        rw [numbers]
        rfl
      omega
    · rw [numbers]
      decide
  have allowed : ∀ (before : List Request) (r : Request) (later : List Request),
      requests = before ++ r :: later → r.Allowed (run start before) := by
    intro before r later split
    change [load address 16, store address (.const none ⟨7, 8⟩)] = before ++ r :: later at split
    rcases before with _ | ⟨first, _ | ⟨second, rest⟩⟩
    · cases split
      exact loads
    · cases split
      exact stores
    · simp at split
  refine ⟨by cbv, (run_stays_feasible ready allowed).1 requests [] (List.append_nil _).symm⟩

end Path.Request

end SymbolicMemory
