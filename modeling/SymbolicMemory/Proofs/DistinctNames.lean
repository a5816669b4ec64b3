import SymbolicMemory.Proofs.Naming

/-! # Which names of a supply are distinct

The two kinds of names are numbered apart, but they are written in one way: a stem, a mark and a
number. For a byte the stem is the id, for a loaded value it is the id with `_addr` behind it. So a
name tells its stem and its number, and two names are one only if a byte is asked for under an id
that ends in `_addr`, a loaded value under what stands before that, and both get one number.
-/

namespace SymbolicMemory

namespace Names

/-- What a supply can be asked for. -/
inductive Call where
  | var (id : String)
  | addr (id : String)
  deriving DecidableEq, Repr

namespace Call

def isVar : Call → Bool
  | var _ => true
  | addr _ => false

/-- The name that is handed out, and the supply after it. -/
def answer (names : Names) : Call → String × Names
  | var id => names.nextVar id
  | addr id => names.nextAddr id

/-- What a name starts with. -/
def stem : Call → String
  | var id => id
  | addr id => id ++ "_addr"

/-- The number that a call gets. -/
def number (names : Names) : Call → UInt64
  | var _ => names.vars
  | addr _ => names.addrs

end Call

/-- The names that are handed out by one call after the other. -/
def serve (names : Names) : List Call → List String
  | [] => []
  | call :: rest => (call.answer names).1 :: (call.answer names).2.serve rest

/-- The supply after some calls. -/
def after (names : Names) (calls : List Call) : Names :=
  calls.foldl (fun names call => (call.answer names).2) names

/-- A name tells its stem and its number, since no digit is a mark. -/
theorem byteName_eq_iff {stem stem' : String} {a b : UInt64} :
    byteName stem a = byteName stem' b ↔ stem = stem' ∧ a = b := by
  refine ⟨fun same => ?_, fun ⟨stems, numbers⟩ => by rw [stems, numbers]⟩
  have unmarked : ∀ n : UInt64, '_' ∉ (Text.decimal n).toList := by
    intro n mark
    rw [Text.decimal, Nat.repr_eq_ofList_toDigits, String.toList_ofList] at mark
    cases Nat.isDigit_of_mem_toDigits (by decide) (by decide) mark
  have chars := congrArg String.toList same
  simp only [byteName, String.toList_append, show "_".toList = ['_'] from rfl, List.append_assoc,
    List.singleton_append] at chars
  rcases List.append_eq_append_iff.mp chars with ⟨between, longer, rest⟩ | ⟨between, longer, rest⟩
  · cases between with
    | nil =>
        rw [List.append_nil] at longer
        exact ⟨(String.toList_inj.mp longer).symm, decimal_inj (String.toList_inj.mp (List.cons.inj rest).2)⟩
    | cons c more =>
        have digits := (List.cons.inj rest).2
        exact absurd (digits ▸ List.mem_append_right more List.mem_cons_self) (unmarked a)
  · cases between with
    | nil =>
        rw [List.append_nil] at longer
        exact ⟨String.toList_inj.mp longer, decimal_inj (String.toList_inj.mp (List.cons.inj rest).2.symm)⟩
    | cons c more =>
        have digits := (List.cons.inj rest).2
        exact absurd (digits ▸ List.mem_append_right more List.mem_cons_self) (unmarked b)

/-- Both kinds of names are written in one way. -/
theorem Call.answer_name (names : Names) (call : Call) :
    (call.answer names).1 = byteName call.stem (call.number names) := by
  cases call with
  | var id => rfl
  | addr id =>
      have mark : "_addr_" = "_addr" ++ "_" := rfl
      simp only [answer, nextAddr, stem, number, byteName, mark, String.append_assoc]

theorem serve_getElem? (names : Names) (calls : List Call) (i : Nat) :
    (names.serve calls)[i]? =
      calls[i]?.map fun call => byteName call.stem (call.number (names.after (calls.take i))) := by
  induction calls generalizing names i with
  | nil => rfl
  | cons call rest ih =>
      cases i with
      | zero => exact congrArg some (call.answer_name names)
      | succ i => exact ih (call.answer names).2 i

theorem length_serve (names : Names) (calls : List Call) : (names.serve calls).length = calls.length := by
  induction calls generalizing names with
  | nil => rfl
  | cons call rest ih => exact congrArg (· + 1) (ih _)

/-- Each kind of call moves its own number on. -/
theorem after_eq (names : Names) (calls : List Call) :
    names.after calls = ⟨names.vars + .ofNat (calls.countP Call.isVar),
      names.addrs + .ofNat (calls.countP fun call => !call.isVar)⟩ := by
  induction calls generalizing names with
  | nil => simp [after]
  | cons call rest ih =>
      have step : names.after (call :: rest) = (call.answer names).2.after rest := rfl
      rw [step, ih]
      cases call with
      | var id | addr id =>
          simp [Call.answer, nextVar, nextAddr, Call.isVar, List.countP_cons, UInt64.add_assoc, UInt64.add_comm 1]

theorem countP_take_lt {p : Call → Bool} {calls : List Call} {call : Call} {i j : Nat} (earlier : i < j)
    (there : calls[i]? = some call) (counts : p call = true) :
    (calls.take i).countP p < (calls.take j).countP p := by
  have next : (calls.take (i + 1)).countP p = (calls.take i).countP p + 1 := by
    rw [List.take_add_one, there, Option.toList_some, List.countP_append, List.countP_singleton, if_pos counts]
  have shorter : (calls.take (i + 1)).Sublist (calls.take j) := (List.take_prefix_take_left earlier).sublist
  exact Nat.lt_of_lt_of_le (next ▸ Nat.lt_succ_self _) shorter.countP_le

/-- Calls of one kind get distinct numbers, as long as there are not too many. -/
theorem ofNat_countP_ne {p : Call → Bool} {calls : List Call} (few : calls.length ≤ UInt64.size) {call : Call}
    {i j : Nat} (earlier : i < j) (inside : j < calls.length) (there : calls[i]? = some call)
    (counts : p call = true) (first : UInt64) :
    first + .ofNat ((calls.take i).countP p) ≠ first + .ofNat ((calls.take j).countP p) := by
  have less := countP_take_lt earlier there counts
  have bound : (calls.take j).countP p < UInt64.size := by
    refine Nat.lt_of_le_of_lt List.countP_le_length ?_
    rw [List.length_take]
    omega
  intro same
  have numbers := congrArg UInt64.toNat ((UInt64.add_right_inj first).mp same)
  rw [UInt64.toNat_ofNat_of_lt' bound, UInt64.toNat_ofNat_of_lt' (Nat.lt_trans less bound)] at numbers
  omega

/-- The names of a supply are distinct unless one call asks for a byte under an id that ends in
    `_addr`, another for a loaded value under what stands before that, and both get one number. -/
theorem serve_nodup_iff (names : Names) {calls : List Call} (few : calls.length ≤ UInt64.size) :
    (names.serve calls).Nodup ↔
      ∀ i j id, calls[i]? = some (.var (id ++ "_addr")) → calls[j]? = some (.addr id) →
        names.vars + .ofNat ((calls.take i).countP Call.isVar) ≠
          names.addrs + .ofNat ((calls.take j).countP fun call => !call.isVar) := by
  constructor
  · intro nodup i j id byte value numbers
    have inside : i < (names.serve calls).length := by
      rw [length_serve]
      exact (List.getElem?_eq_some_iff.mp byte).1
    have same : (names.serve calls)[i]? = (names.serve calls)[j]? := by
      simp only [serve_getElem?, byte, value, Option.map_some, after_eq, Call.number, numbers]
      rfl
    have place : i = j := (List.getElem?_inj inside nodup).mp same
    rw [place, value] at byte
    cases byte
  · intro apart
    refine List.pairwise_iff_getElem.mpr fun i j hi hj earlier same => ?_
    have names_eq : (names.serve calls)[i]? = (names.serve calls)[j]? := by
      rw [List.getElem?_eq_getElem hi, List.getElem?_eq_getElem hj, same]
    rw [length_serve] at hi hj
    have first := List.getElem?_eq_getElem hi
    have second := List.getElem?_eq_getElem hj
    revert first second
    generalize calls[i] = a, calls[j] = b
    intro first second
    rw [serve_getElem?, serve_getElem?, first, second, Option.map_some, Option.map_some, Option.some.injEq,
      byteName_eq_iff, after_eq, after_eq] at names_eq
    obtain ⟨stems, numbers⟩ := names_eq
    cases a with
    | var id =>
        cases b with
        | var id' => exact ofNat_countP_ne few earlier hj first rfl _ numbers
        | addr id' =>
            rw [show id = id' ++ "_addr" from stems] at first
            exact apart i j id' first second numbers
    | addr id =>
        cases b with
        | var id' =>
            rw [show id' = id ++ "_addr" from stems.symm] at second
            exact apart j i id second first numbers.symm
        | addr id' => exact ofNat_countP_ne few earlier hj first rfl _ numbers

/-- A byte under `mem_addr` does no harm if another byte comes before it. -/
theorem serve_nodup_interleaved :
    let calls := [Call.var "mem", .addr "mem", .var "mem_addr", .addr "mem_addr"]
    calls.length ≤ UInt64.size ∧ serve {} calls = ["mem_0", "mem_addr_0", "mem_addr_1", "mem_addr_addr_1"] ∧
      (serve {} calls).Nodup := by
  intro calls
  have few : calls.length ≤ UInt64.size := by decide
  refine ⟨few, by decide +kernel, (serve_nodup_iff {} few).mpr ?_⟩
  intro i j id byte value
  obtain ⟨inside, byte⟩ := List.getElem?_eq_some_iff.mp byte
  rcases j with _ | _ | _ | _ | j <;> cases value <;> revert i <;> decide

/-- A byte and a loaded value can get one name. -/
theorem not_serve_nodup : ¬ ∀ calls : List Call, calls.length < UInt64.size → (serve {} calls).Nodup := by
  intro all
  have distinct := all [.var "mem_addr", .addr "mem"] (by decide)
  have names : serve {} [.var "mem_addr", .addr "mem"] = ["mem_addr_0", "mem_addr_0"] := by decide +kernel
  rw [names] at distinct
  exact absurd distinct (by decide)

end Names

end SymbolicMemory
