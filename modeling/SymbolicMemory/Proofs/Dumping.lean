import Mathlib
import SymbolicMemory.Proofs.Accepted
import SymbolicMemory.Proofs.RoundTrip
import SymbolicMemory.Proofs.StoreRuns

/-! # A dump shows what was read

Bytes are read in one order and shown in another, and a byte that the image does not have is numbered
when it is first read. What the cells of a store show after some reads is an invariant, which one more
read keeps; so it holds of the memory that a dump shows. The addresses come round at the end of the
address space, and bytes that were read before are found and not numbered again.
-/

namespace SymbolicMemory

namespace Expr

theorem text_constByte (tag : Tag) (b : UInt8) :
    (const tag ⟨b.toUInt64, 8⟩).text = "(const " ++ b.toNat.repr ++ " 8)" := by
  change "(const " ++ b.toUInt64.toNat.repr ++ " " ++ Nat.repr 8 ++ ")" = _
  rw [UInt8.toNat_toUInt64, String.append_assoc, String.append_assoc]
  rfl

theorem text_varByte (tag : Tag) (name : String) : (var tag ⟨name, 8⟩).text = "(var " ++ name ++ " 8)" := by
  change "(var " ++ name ++ " " ++ Nat.repr 8 ++ ")" = _
  rw [String.append_assoc, String.append_assoc]
  rfl

end Expr

namespace Image

/-- The addresses that an image has no byte for, among some. -/
def gaps (image : Image) (reads : List UInt64) : Finset UInt64 := reads.toFinset.filter (image · = none)

/-- What an address shows after some reads from an empty memory: the byte of the image, or a variable
    that is numbered by the addresses without a byte which were read before. -/
def shown (image : Image) (id : String) (reads : List UInt64) (a : UInt64) : String :=
  match image a with
  | some b => "(const " ++ b.toNat.repr ++ " 8)"
  | none => "(var " ++ id ++ "_" ++ (image.gaps (reads.takeWhile (· ≠ a))).card.repr ++ " 8)"

section Gaps

variable {image : Image} {id : String} {reads : List UInt64} {a : UInt64}

theorem gaps_concat_of_known (known : a ∈ reads ∨ (image a).isSome) : image.gaps (reads ++ [a]) = image.gaps reads := by
  ext c
  simp only [gaps, Finset.mem_filter, List.mem_toFinset, List.mem_append, List.mem_singleton]
  grind

theorem card_gaps_concat (untouched : a ∉ reads) (here : image a = none) :
    (image.gaps (reads ++ [a])).card = (image.gaps reads).card + 1 := by
  have grown : image.gaps (reads ++ [a]) = insert a (image.gaps reads) := by
    ext c
    simp only [gaps, Finset.mem_filter, List.mem_toFinset, List.mem_append, List.mem_singleton, Finset.mem_insert]
    grind
  rw [grown, Finset.card_insert_of_notMem]
  simp [gaps, untouched]

theorem card_gaps_le (image : Image) (reads : List UInt64) : (image.gaps reads).card ≤ reads.length :=
  (Finset.card_filter_le _ _).trans reads.toFinset_card_le

/-- Later reads do not change what an address shows that was read. -/
theorem shown_append (member : a ∈ reads) (more : List UInt64) :
    image.shown id (reads ++ more) a = image.shown id reads a := by
  have ahead : (reads ++ more).takeWhile (· ≠ a) = reads.takeWhile (· ≠ a) := by
    obtain ⟨before, behind, rfl, untouched⟩ := List.eq_append_cons_of_mem member
    have apart : ∀ b ∈ before, decide (b ≠ a) = true := by grind
    rw [List.append_assoc, List.takeWhile_append_of_pos apart, List.takeWhile_append_of_pos apart, List.cons_append,
      List.takeWhile_cons_of_neg (by simp), List.takeWhile_cons_of_neg (by simp)]
  rw [shown, ahead, shown]

/-- An address that is read for the first time takes the next number. -/
theorem shown_concat_of_none (untouched : a ∉ reads) (here : image a = none) :
    image.shown id (reads ++ [a]) a = "(var " ++ id ++ "_" ++ (image.gaps reads).card.repr ++ " 8)" := by
  have apart : ∀ b ∈ reads, decide (b ≠ a) = true := by grind
  rw [shown, here, List.takeWhile_append_of_pos apart, List.takeWhile_cons_of_neg (by simp), List.append_nil]

end Gaps

end Image

namespace Store

/-- What is so after some reads from an empty store. -/
structure Numbered (initial : Store) (reads : List UInt64) (s : Store) (session : Session) : Prop where
  settings_eq : s = { initial with cells := s.cells }
  drawn : (session.supplied initial.supply).vars = UInt64.ofNat (initial.image.gaps reads).card
  touched : ∀ a : UInt64, s.cells[a]?.isSome ↔ a ∈ reads
  shown : ∀ (a : UInt64) (cell : Expr), s.cells[a]? = some cell →
    cell.text = initial.image.shown initial.id reads a

section Reading

variable {initial s after : Store} {session left : Session} {reads : List UInt64} {a : UInt64} {cell : Expr}

theorem Numbered.nil (empty : ∀ a : UInt64, initial.cells[a]? = none) (unnamed : session.supplied initial.supply = {}) :
    Numbered initial [] initial session where
  settings_eq := rfl
  drawn := by
    rw [unnamed]
    rfl
  touched a := by simp [empty]
  shown a cell there := by simp [empty] at there

/-- Only the first read of an address that the image has no byte for takes a number. -/
theorem Numbered.drawn_concat (numbered : Numbered initial reads s session)
    (goes : Goes s session (.read a) cell after left) :
    (left.supplied initial.supply).vars = UInt64.ofNat (initial.image.gaps (reads ++ [a])).card := by
  have drawn := numbered.drawn
  have touched := numbered.touched a
  rw [numbered.settings_eq] at goes
  cases goes with
  | finds present => rw [drawn, Image.gaps_concat_of_known (.inl (touched.mp (by simp [present])))]
  | loads absent image made next supplied =>
      rw [Image.gaps_concat_of_known (.inr (Option.isSome_of_mem image)), ← drawn]
      exact congrArg Names.vars supplied
  | draws absent image made next supplied =>
      have untouched : a ∉ reads := by simp [← touched, absent]
      rw [Image.card_gaps_concat untouched image, UInt64.ofNat_add, ← drawn]
      exact congrArg Names.vars supplied

/-- The cell that a read returns shows what its address does. -/
theorem Numbered.text_eq (numbered : Numbered initial reads s session)
    (goes : Goes s session (.read a) cell after left) (few : reads.length < UInt64.size) :
    cell.text = initial.image.shown initial.id (reads ++ [a]) a := by
  have drawn := numbered.drawn
  have touched := numbered.touched a
  have shown := numbered.shown a
  rw [numbered.settings_eq] at goes
  cases goes with
  | finds present => rw [shown cell present, Image.shown_append (touched.mp (by simp [present]))]
  | loads absent image made next supplied =>
      rw [made, Expr.text_constByte, Image.shown, show initial.image a = _ from image]
  | draws absent image made next supplied =>
      have untouched : a ∉ reads := by simp [← touched, absent]
      have number : (UInt64.ofNat (initial.image.gaps reads).card).toNat = (initial.image.gaps reads).card :=
        Nat.mod_eq_of_lt (Nat.lt_of_le_of_lt (initial.image.card_gaps_le reads) few)
      rw [made, Expr.text_varByte, Image.shown_concat_of_none untouched image, drawn, Names.byteName, Text.decimal,
        number]
      simp only [String.append_assoc]

theorem Numbered.concat (numbered : Numbered initial reads s session)
    (goes : Goes s session (.read a) cell after left) (few : reads.length < UInt64.size) :
    Numbered initial (reads ++ [a]) after left where
  settings_eq := by rw [goes.settings_eq, numbered.settings_eq]
  drawn := numbered.drawn_concat goes
  touched b := by
    rw [List.mem_append, ← numbered.touched, List.mem_singleton]
    by_cases here : a = b
    · cases here
      simp [show after.cells[a]? = _ from goes.lookup_self]
    · simp [goes.lookup_other here, Ne.symm here]
  shown b c there := by
    by_cases here : a = b
    · cases here
      cases goes.lookup_self.symm.trans there
      exact numbered.text_eq goes few
    · rw [goes.lookup_other here] at there
      rw [numbered.shown b c there, Image.shown_append ((numbered.touched b).mp (by simp [there]))]

end Reading

end Store

namespace Memory

theorem readCell_goes (m : Memory) (s : Session) (address : UInt64) :
    ∃ cell after left, readCell address (m, s) = .ok cell ({ m with store := after }, left) ∧
      Store.Goes m.store s (.read (m.wrap address)) cell after left := by
  obtain ⟨cell, after, left, done, goes⟩ := @Store.perform_goes m.store s (.read (m.wrap address)) trivial
  refine ⟨cell, after, left, ?_, goes⟩
  rw [Store.perform] at done
  simp only [readCell, On.thing, bind, EStateM.bind, onStore, On.part, done]

/-- The addresses of some bytes from an address on. -/
def places (m : Memory) (address : UInt64) (count : Nat) : List UInt64 :=
  (List.range count).map fun k => m.wrap (address + .ofNat k)

theorem places_succ (m : Memory) (address : UInt64) (count : Nat) :
    m.places address (count + 1) = m.wrap address :: m.places (address + 1) count := by
  simp only [places, List.range_succ_eq_map, List.map_cons, List.map_map, Function.comp_def, Nat.succ_eq_add_one,
    add_ofNat_zero, add_one_add_ofNat]

/-- Reading some bytes succeeds and reads their addresses in order. -/
theorem readEach_numbered {initial : Store} (count : Nat) (address : UInt64) {m : Memory} {s : Session}
    {reads : List UInt64} (numbered : initial.Numbered reads m.store s)
    (few : reads.length + count ≤ UInt64.size) (soFar : List Expr) :
    ∃ cells after left, readEach address count soFar (m, s) = .ok cells ({ m with store := after }, left) ∧
      initial.Numbered (reads ++ m.places address count) after left := by
  induction count generalizing address m s reads soFar with
  | zero => exact ⟨soFar.reverse, m.store, s, rfl, by simpa [places] using numbered⟩
  | succ count ih =>
      obtain ⟨cell, after, left, done, goes⟩ := readCell_goes m s address
      have more := numbered.concat goes (by omega)
      have room : (reads ++ [m.wrap address]).length + count ≤ UInt64.size := by
        rw [List.length_append, List.length_singleton]
        omega
      obtain ⟨cells, last, rest, ended, all⟩ :=
        ih (address + 1) (m := { m with store := after }) more room (cell :: soFar)
      refine ⟨cells, last, rest, ?_, ?_⟩
      · simp only [readEach, bind, EStateM.bind, done, ended]
      · rw [List.append_assoc] at all
        rw [places_succ]
        exact all

/-- What a memory shows whose store holds what some reads made. -/
theorem dump_eq {initial : Store} {reads : List UInt64} {m : Memory} {s : Session}
    (numbered : initial.Numbered reads m.store s) :
    m.dump = "id=" ++ initial.id ++ " bits=" ++ Text.decimal m.bits ++ " cells=" ++ reads.toFinset.card.repr ++ "\n" ++
      String.join ((m.store.toList.map Prod.fst).map fun a =>
        Text.hexAddress a ++ " " ++ initial.image.shown initial.id reads a ++ "\n") := by
  have named : m.id = initial.id := by
    rw [Memory.id, numbered.settings_eq]
  rw [dump, named, Store.size_eq_card numbered.touched, List.map_map]
  refine congrArg (_ ++ String.join ·) (List.map_congr_left fun entry member => ?_)
  simp only [Function.comp_apply, numbered.shown entry.1 entry.2 (Store.mem_toList.mp member)]

theorem readBytes_eq (address : UInt64) {count : Int} (nonneg : 0 ≤ count) (small : count ≤ 2 ^ 44) :
    readBytes address count = readEach address count.toNat [] := by
  have inside : ¬(count < 0 ∨ maxBytes < count) := by
    rw [show maxBytes = 2 ^ 44 from rfl]
    omega
  rw [readBytes, if_neg inside]

theorem readBytes_beyond (address : UInt64) {count : Int} (beyond : 2 ^ 44 < count) (here : Memory × Session) :
    readBytes address count here = .error (.fault (.cellCount count)) here := by
  rw [readBytes, if_pos (.inr beyond)]
  rfl

end Memory

/-- An accepted configuration makes an empty memory over any image. -/
theorem Config.memory_new {config : Config} (valid : config.validate = .ok ()) (image : Image) :
    ∃ m, config.memory (.ok image) = .ok m ∧ m.bits = config.bits ∧ m.store = { id := config.id, image := image } := by
  obtain ⟨⟨positive, narrow⟩, named, _, regions, table⟩ := validate_ok valid
  have wide : config.bits ≠ 0 := UInt64.pos_iff_ne_zero.mp positive
  rw [Config.memory, table]
  simp only [Failure.ofError, Failure.ofFault, bind, Except.bind, Memory.new, wide, named, if_false,
    UInt64.not_lt.mpr narrow]
  exact ⟨_, rfl, rfl, rfl⟩

namespace DumpRequest

/-- The addresses that are read, in the order of the reads. -/
def reads (r : DumpRequest) (bits : UInt64) : List UInt64 :=
  (List.range r.size.toNat).map fun k => .ofNat ((r.address.toNat + k) % 2 ^ bits.toNat)

/-- What a dump shows: the bytes that were asked for, each address once and in ascending order. -/
def Shows (r : DumpRequest) (config : Config) (image : Image) (out : String) : Prop :=
  ∃ addresses : List UInt64,
    addresses.Pairwise (· < ·) ∧
    (∀ a, a ∈ addresses ↔ ∃ k : Nat, k < r.size ∧ a.toNat = (r.address.toNat + k) % 2 ^ config.bits.toNat) ∧
    out = "id=" ++ config.id ++ " bits=" ++ config.bits.toNat.repr ++ " cells=" ++
        (min r.size.toNat (2 ^ config.bits.toNat)).repr ++ "\n" ++
      String.join (addresses.map fun a =>
        Text.hexAddress a ++ " " ++ image.shown config.id (r.reads config.bits) a ++ "\n")

/-- There is one text that a dump can show. -/
theorem Shows.unique {r : DumpRequest} {config : Config} {image : Image} {out other : String}
    (shows : r.Shows config image out) (again : r.Shows config image other) : out = other := by
  obtain ⟨addresses, ascending, members, rfl⟩ := shows
  obtain ⟨others, ascending', members', rfl⟩ := again
  rw [ascending.eq_of_mem_iff ascending' fun a => (members a).trans (members' a).symm]

/-- Not even a dump of no bytes is empty. -/
theorem Shows.ne_empty {r : DumpRequest} {config : Config} {image : Image} {out : String}
    (shows : r.Shows config image out) : out ≠ "" := by
  obtain ⟨addresses, _, _, rfl⟩ := shows
  simp

section Addresses

variable (r : DumpRequest) {bits : UInt64} (narrow : bits ≤ 64)

include narrow

theorem toNat_read (k : Nat) :
    (UInt64.ofNat ((r.address.toNat + k) % 2 ^ bits.toNat)).toNat = (r.address.toNat + k) % 2 ^ bits.toNat := by
  have small := Nat.mod_lt (r.address.toNat + k) (Nat.two_pow_pos bits.toNat)
  exact Nat.mod_eq_of_lt (Nat.lt_of_lt_of_le small (two_pow_toNat_le narrow))

theorem places_eq_reads {m : Memory} (same : m.bits = bits) : m.places r.address r.size.toNat = r.reads bits := by
  cases same
  refine List.map_congr_left fun k _ => UInt64.toNat_inj.mp ?_
  rw [Memory.toNat_wrap_add narrow, toNat_read r narrow]

theorem mem_reads (nonneg : 0 ≤ r.size) (a : UInt64) :
    a ∈ r.reads bits ↔ ∃ k : Nat, k < r.size ∧ a.toNat = (r.address.toNat + k) % 2 ^ bits.toNat := by
  simp only [reads, List.mem_map, List.mem_range]
  refine exists_congr fun k => and_congr (by omega) ?_
  rw [← UInt64.toNat_inj, toNat_read r narrow, eq_comm]

/-- The addresses differ until they come round. -/
theorem card_reads : (r.reads bits).toFinset.card = min r.size.toNat (2 ^ bits.toNat) := by
  have once : (r.reads bits).toFinset = (Finset.range (min r.size.toNat (2 ^ bits.toNat))).image fun k =>
      UInt64.ofNat ((r.address.toNat + k) % 2 ^ bits.toNat) := by
    ext a
    simp only [reads, List.mem_toFinset, List.mem_map, List.mem_range, Finset.mem_image, Finset.mem_range]
    constructor
    · rintro ⟨k, below, rfl⟩
      refine ⟨k % 2 ^ bits.toNat, ?_, by rw [Nat.add_mod_mod]⟩
      exact lt_min (Nat.lt_of_le_of_lt (Nat.mod_le _ _) below) (Nat.mod_lt _ (Nat.two_pow_pos _))
    · rintro ⟨k, below, rfl⟩
      exact ⟨k, lt_of_lt_of_le below (min_le_left _ _), rfl⟩
  rw [once, Finset.card_image_of_injOn, Finset.card_range]
  intro i hi j hj same
  have numbers := congrArg UInt64.toNat same
  dsimp only at numbers
  rw [toNat_read r narrow, toNat_read r narrow] at numbers
  rw [Finset.mem_coe, Finset.mem_range, lt_min_iff] at hi hj
  exact Nat.ModEq.eq_of_lt_of_lt (Nat.ModEq.add_left_cancel' _ numbers) hi.2 hj.2

end Addresses

section Showing

variable {r : DumpRequest} {config : Config} {image : Image} {m : Memory} {s : Session}

/-- Up to 2^44 bytes are read from a new memory and shown. -/
theorem showBytes_shows (narrow : config.bits ≤ 64) (bits : m.bits = config.bits)
    (new : m.store = { id := config.id, image := image }) (unnamed : s.names = {}) (plain : r.raw = false)
    (nonneg : 0 ≤ r.size) (small : r.size ≤ 2 ^ 44) :
    ∃ out left, r.showBytes (m, s) = .ok out left ∧ r.Shows config image out := by
  have start : Store.Numbered { id := config.id, image := image } [] m.store s := by
    rw [new]
    exact .nil (fun a => Std.TreeMap.getElem?_emptyc) unnamed
  have few : ([] : List UInt64).length + r.size.toNat ≤ UInt64.size := by
    rw [List.length_nil, UInt64.size]
    omega
  obtain ⟨cells, after, left, done, numbered⟩ := Memory.readEach_numbered r.size.toNat r.address start few []
  rw [List.nil_append, places_eq_reads r narrow bits] at numbered
  refine ⟨_, ({ m with store := after }, left), ?_, after.toList.map Prod.fst, after.toList_ascending, fun a => ?_,
    (Memory.dump_eq (m := { m with store := after }) numbered).trans ?_⟩
  · simp only [showBytes, Memory.readBytes_eq r.address nonneg small, bind, EStateM.bind, done, plain]
    rfl
  · rw [Store.mem_map_fst_toList, numbered.touched, mem_reads r narrow nonneg]
  · rw [card_reads r narrow, Text.decimal, bits]

section Reporting

variable (valid : config.validate = .ok ()) (plain : r.raw = false) (nonneg : 0 ≤ r.size) (image)

include valid plain nonneg

theorem report_shows (unnamed : s.names = {}) (small : r.size ≤ 2 ^ 44) :
    ∃ out left, r.report config (.ok image) s = .ok out left ∧ r.Shows config image out := by
  obtain ⟨m, made, bits, new⟩ := Config.memory_new valid image
  obtain ⟨out, ⟨after, left⟩, done, shown⟩ :=
    showBytes_shows (Config.validate_ok valid).1.2 bits new unnamed plain nonneg small
  refine ⟨out, left, ?_, shown⟩
  rw [report, if_neg (Int.not_lt.mpr nonneg), made]
  simp only [bind, EStateM.bind, pure, EStateM.pure, Action.ofExcept, Action.on, done]

omit plain in
theorem report_beyond (beyond : 2 ^ 44 < r.size) (s : Session) :
    r.report config (.ok image) s = .error (.failure (.fault (.cellCount r.size))) s := by
  obtain ⟨m, made, _⟩ := Config.memory_new valid image
  rw [report, if_neg (Int.not_lt.mpr nonneg), made]
  simp only [bind, EStateM.bind, pure, EStateM.pure, Action.ofExcept, Action.on, showBytes,
    Memory.readBytes_beyond r.address beyond]

end Reporting

end Showing

/-- With an accepted configuration and any image, a dump of up to 2^44 bytes succeeds. It shows each
    address that was read once and in ascending order, with the byte of the image or else a variable
    that is numbered by the reads. More bytes are a fault, and nothing is shown. -/
theorem report_dumps_bytes {config : Config} (valid : config.validate = .ok ()) {r : DumpRequest}
    (plain : r.raw = false) (nonneg : 0 ≤ r.size) (image : Image) (session : Session) (unnamed : session.names = {})
    (verbose canceled : Bool) (backends : List (String × Backend)) :
    let report := (Request.dump r).report verbose backends canceled config (.ok image) session
    (r.size ≤ 2 ^ 44 → report.stop = none ∧ r.Shows config image report.out) ∧
    (2 ^ 44 < r.size → report.stop = some (.failure (.fault (.cellCount r.size))) ∧ report.out = "") := by
  intro report
  have reported : report = Report.ofResult verbose (r.report config (.ok image) session) := rfl
  rw [reported]
  constructor
  · intro small
    obtain ⟨out, left, done, shown⟩ := report_shows image valid plain nonneg unnamed small
    rw [done]
    exact ⟨rfl, shown⟩
  · intro beyond
    rw [report_beyond image valid nonneg beyond]
    exact ⟨rfl, rfl⟩

/-- The reads begin at the last address and come round, so the lines stand in another order than
    the numbers; and a byte beyond the bound is one too many. -/
theorem report_dumps_bytes_around :
    ((Request.dump { address := 18446744073709551615, size := 3 }).report false [] false {} (.ok .empty) {}).out =
      "id=mem bits=64 cells=3\n0000000000000000 (var mem_1 8)\n0000000000000001 (var mem_2 8)\n" ++
      "ffffffffffffffff (var mem_0 8)\n" ∧
    ((Request.dump { size := 17592186044417 }).report false [] false {} (.ok .empty) {}).stop =
      some (.failure (.fault (.cellCount 17592186044417))) := by
  have valid := Config.default_accepted.valid
  have first := report_dumps_bytes valid (r := { address := 18446744073709551615, size := 3 }) rfl (by decide)
    .empty {} rfl false false []
  have second := report_dumps_bytes valid (r := { size := 17592186044417 }) rfl (by decide) .empty {} rfl false false []
  have order : ({ address := 18446744073709551615, size := 3 } : DumpRequest).reads ({} : Config).bits =
      [18446744073709551615, 0, 1] := by decide
  refine ⟨(first.1 (by decide)).2.unique ⟨[0, 1, 18446744073709551615], by decide, fun a => ?_, ?_⟩,
    (second.2 (by decide)).1⟩
  · rw [← mem_reads _ (by decide) (by decide), order]
    grind
  · rw [order]
    decide

/-- Not every number of bytes is shown, though no number is refused unless it is negative: two
    addresses cannot be read 2^62 times. -/
theorem not_report_dumps_any_size :
    ¬ ∀ (config : Config) (r : DumpRequest) (image : Image), config.validate = .ok () → r.raw = false →
      0 ≤ r.size → IsMachine r.size →
      r.Shows config image ((Request.dump r).report false Backend.standard false config (.ok image) {}).out := by
  intro every
  have valid : Config.validate { bits := 1 } = .ok () :=
    Config.validate_of_no_regions (by decide) (by decide) (by decide) rfl
  have shown := every { bits := 1 } { size := 4611686018427387904 } .empty valid rfl (by decide) (by decide)
  have fault := report_beyond (r := { size := 4611686018427387904 }) .empty valid (by decide) (by decide) {}
  rw [Request.report, Request.perform, fault] at shown
  exact shown.ne_empty rfl

end DumpRequest

end SymbolicMemory
