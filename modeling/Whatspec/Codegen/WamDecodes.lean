import Whatspec.Codegen.Wam

/-!
# WAM buffers are uniquely decodable

`readBuffer` recovers the calls from the bytes they leave.

* `writeValue_spec` says what one write appends: flags, an id and a payload that `readValue`
  reads for the class in the flags;
* `reads_entry` is that one such write is one unit of the stream;
* `WellFlagged` is how the interface is meant to be called, `WamEvent.emit` calls it so, and
  `Terminated` is what it gives: the terminal bit on the last entry of each event, and only
  there.
-/

namespace Whatspec.Codegen

open Whatspec.Library Whatspec.Library.Binary64 Whatspec.Library.Reader Whatspec.Text

/-- The values the codec is for: a string's length fits the format, and an integer is one of
those every double in between has. -/
def WamWire.InDomain : WamWire → Prop
  | .int n => n.natAbs ≤ 2 ^ 53
  | .float _ => True
  | .bool _ => True
  | .str s => (utf8 s).length < 2 ^ 32

/-- The classes of values. -/
def sizeClasses : List UInt8 := [0x10, 0x20, 0x30, 0x40, 0x50, 0x70, 0x80, 0x90, 0xA0]

/-- A class, and a payload that says a value in it. -/
structure Says (sizeClass : UInt8) (payload : List UInt8) (v : WamValue) : Prop where
  mem : sizeClass ∈ sizeClasses
  reads : Reads (readValue sizeClass) payload v

namespace WamBuffer

theorem extend_extend (b : WamBuffer) (xs ys : List UInt8) :
    (b.extend xs).extend ys = b.extend (xs ++ ys) :=
  congrArg WamBuffer.mk (List.append_assoc _ _ _)

theorem extend_nil (b : WamBuffer) : b.extend [] = b :=
  congrArg WamBuffer.mk (List.append_nil _)

/-! ### Numbers -/

/-- What the class of 32-bit integers a number falls in says. -/
theorem writeNum_integer (b : WamBuffer) (flags : UInt8) (id : UInt16) {v : Word}
    (h : eq v (ofInt (toI32 v)) = true) :
    ∃ sizeClass payload, b.writeNum flags id v =
        (b.tag (flags ||| sizeClass) id).extend payload ∧
      Says sizeClass payload (.int (toI32 v)) := by
  obtain ⟨hlow, hhigh⟩ := toI32_isI32 v
  rw [writeNum, if_pos h]
  dsimp only
  by_cases hzero : toI32 v = 0
  · rw [if_pos hzero, hzero]
    exact ⟨0x10, [], (extend_nil _).symm, by decide, reads_pure _⟩
  rw [if_neg hzero]
  by_cases hone : toI32 v = 1
  · rw [if_pos hone, hone]
    exact ⟨0x20, [], (extend_nil _).symm, by decide, reads_pure _⟩
  rw [if_neg hone]
  by_cases hbyte : -128 ≤ toI32 v ∧ toI32 v ≤ 127
  · rw [if_pos hbyte]
    exact ⟨0x30, _, rfl, by decide, (reads_leInt (by omega) (by omega)).map _⟩
  rw [if_neg hbyte]
  by_cases hshort : -32768 ≤ toI32 v ∧ toI32 v ≤ 32767
  · rw [if_pos hshort]
    exact ⟨0x40, _, rfl, by decide, (reads_leInt (by omega) (by omega)).map _⟩
  · rw [if_neg hshort]
    exact ⟨0x50, _, rfl, by decide, (reads_leInt (by omega) (by omega)).map _⟩

/-- **A number is said as the value of its double.** -/
theorem writeNum_spec (b : WamBuffer) (flags : UInt8) (id : UInt16) (v : Word) :
    ∃ sizeClass payload, b.writeNum flags id v =
        (b.tag (flags ||| sizeClass) id).extend payload ∧
      Says sizeClass payload (.ofWord v) := by
  by_cases h : eq v (ofInt (toI32 v)) = true
  · have hvalue : WamValue.ofWord v = .int (toI32 v) := by
      rw [WamValue.ofWord, integer_of_value ((eq_ofInt_toI32 v).mp h)]
    rw [hvalue]
    exact writeNum_integer b flags id h
  · refine ⟨0x70, leBytes 8 v.toNat, ?_, by decide, ?_⟩
    · rw [writeNum, if_neg h]
    · have hread := (reads_leNat (k := 8) (n := v.toNat) v.isLt).map
        fun n => WamValue.ofWord (BitVec.ofNat 64 n)
      rw [BitVec.ofNat_toNat, BitVec.setWidth_eq] at hread
      exact hread

/-! ### Values -/

theorem reads_str {k : ℕ} {s : String} (h : (utf8 s).length < 256 ^ k) :
    Reads (readStr k) (leBytes k (utf8 s).length ++ utf8 s) (.str s) := by
  refine (reads_leNat h).bind ((reads_exactly (utf8 s)).bind_last ?_)
  exact Reads.bind_given (readUtf8_utf8 s) (reads_pure _)

theorem ofWord_ofInt {n : ℤ} (h : n.natAbs ≤ 2 ^ 53) : WamValue.ofWord (ofInt n) = .int n := by
  rw [WamValue.ofWord, integer_of_value (value_ofInt h)]

/-- **What one write appends.** -/
theorem writeValue_spec (b : WamBuffer) (flags : UInt8) (id : UInt16) {v : WamWire}
    (h : v.InDomain) :
    ∃ sizeClass payload, b.writeValue flags id v =
        (b.tag (flags ||| sizeClass) id).extend payload ∧
      Says sizeClass payload v.value := by
  cases v with
  | int n =>
      have hnum := writeNum_spec b flags id (ofInt n)
      rw [ofWord_ofInt h] at hnum
      exact hnum
  | float w => exact writeNum_spec b flags id w
  | bool v =>
      have hnum := writeNum_spec b flags id (if v then ofInt 1 else ofInt 0)
      have hvalue : WamValue.ofWord (if v then ofInt 1 else ofInt 0) = (WamWire.bool v).value := by
        cases v with
        | false => exact ofWord_ofInt (by norm_num)
        | true => exact ofWord_ofInt (by norm_num)
      rw [hvalue] at hnum
      exact hnum
  | str s =>
      rw [writeValue]
      by_cases hbyte : (utf8 s).length < 256
      · rw [if_pos hbyte, extend_extend]
        exact ⟨0x80, _, rfl, by decide, reads_str (by omega)⟩
      rw [if_neg hbyte]
      by_cases hshort : (utf8 s).length < 65536
      · rw [if_pos hshort, extend_extend]
        exact ⟨0x90, _, rfl, by decide, reads_str (by omega)⟩
      · rw [if_neg hshort, extend_extend]
        exact ⟨0xA0, _, rfl, by decide, reads_str (lt_of_lt_of_eq h (by norm_num))⟩

end WamBuffer

/-! ### One entry -/

/-- The flags of a marker and a terminal bit, before the class and the width of the id. -/
def baseFlags (marker : Marker) (isLast : Bool) : UInt8 :=
  let flags := match marker with
    | .global => mGlobal
    | .event => mEvent
    | .field => mField
  if isLast then flags ||| terminal else flags

/-- What the parts of a flag byte read as. -/
structure FlagsRead (flags : UInt8) (marker : Marker) (isLast wide : Bool)
    (sizeClass : UInt8) : Prop where
  marker : readMarker flags = some marker
  isWide : decide (flags &&& 8 = 0) = !wide
  sizeClass : flags &&& 0xF0 = sizeClass
  isLast : decide (flags &&& 4 ≠ 0) = isLast

instance (flags : UInt8) (marker : Marker) (isLast wide : Bool) (sizeClass : UInt8) :
    Decidable (FlagsRead flags marker isLast wide sizeClass) :=
  decidable_of_iff (readMarker flags = some marker ∧ decide (flags &&& 8 = 0) = !wide ∧
      flags &&& 0xF0 = sizeClass ∧ decide (flags &&& 4 ≠ 0) = isLast)
    ⟨fun ⟨hm, hw, hs, hl⟩ => ⟨hm, hw, hs, hl⟩, fun h => ⟨h.1, h.2, h.3, h.4⟩⟩

/-- **The parts of the flags do not overlap.** -/
theorem flagsRead (marker : Marker) (isLast : Bool) {sizeClass : UInt8}
    (h : sizeClass ∈ sizeClasses) :
    FlagsRead (baseFlags marker isLast ||| sizeClass) marker isLast false sizeClass ∧
      FlagsRead (baseFlags marker isLast ||| sizeClass ||| wideId) marker isLast true
        sizeClass := by
  have hall : sizeClasses.all (fun c => decide
      (FlagsRead (baseFlags marker isLast ||| c) marker isLast false c ∧
        FlagsRead (baseFlags marker isLast ||| c ||| wideId) marker isLast true c)) = true := by
    cases marker <;> cases isLast <;> decide
  exact of_decide_eq_true (List.all_eq_true.mp hall sizeClass h)

/-- Flags, an id of the width they say and a payload are one unit. -/
theorem reads_unit {flags : UInt8} {marker : Marker} {isLast wide : Bool} {sizeClass : UInt8}
    (h : FlagsRead flags marker isLast wide sizeClass) {id : UInt16}
    (hid : wide = false → id.toNat < 256) {payload : List UInt8} {v : WamValue}
    (hread : Reads (readValue sizeClass) payload v) :
    Reads readEntry ([flags] ++ (leBytes (if wide then 2 else 1) id.toNat ++ payload))
      ⟨marker, id, v, isLast⟩ := by
  have hwidth : (if flags &&& 8 = 0 then 1 else 2) = if wide then 2 else 1 := by
    have hw := h.isWide
    cases wide with
    | false => exact if_pos (of_decide_eq_true hw)
    | true => exact if_neg (of_decide_eq_false hw)
  have hnat : Reads (leNat (if flags &&& 8 = 0 then 1 else 2))
      (leBytes (if wide then 2 else 1) id.toNat) id.toNat := by
    rw [hwidth]
    apply reads_leNat
    cases wide with
    | false => exact hid rfl
    | true => exact id.toNat_lt
  have hentry : (⟨marker, id, v, isLast⟩ : Entry) =
      ⟨marker, UInt16.ofNat id.toNat, v, decide (flags &&& 4 ≠ 0)⟩ := by
    rw [h.isLast, UInt16.ofNat_toNat]
  rw [hentry]
  refine (reads_next flags).bind (Reads.bind_given h.marker (hnat.bind ?_))
  rw [← h.sizeClass] at hread
  exact hread.bind_last (reads_pure _)

/-- **What one write appends is one unit of the stream.** -/
theorem reads_entry (b : WamBuffer) (marker : Marker) (isLast : Bool) (id : UInt16)
    {v : WamWire} (h : v.InDomain) :
    ∃ bytes, b.writeValue (baseFlags marker isLast) id v = b.extend bytes ∧ bytes ≠ [] ∧
      Reads readEntry bytes ⟨marker, id, v.value, isLast⟩ := by
  obtain ⟨sizeClass, payload, hwrite, hmem, hread⟩ :=
    b.writeValue_spec (baseFlags marker isLast) id h
  obtain ⟨hnarrow, hwide⟩ := flagsRead marker isLast hmem
  rw [hwrite, WamBuffer.tag]
  by_cases hid : id.toNat < 256
  · rw [if_pos hid, WamBuffer.extend_extend, WamBuffer.extend_extend]
    exact ⟨_, rfl, List.cons_ne_nil _ _,
      reads_unit hnarrow (fun _ => hid) hread⟩
  · rw [if_neg hid, WamBuffer.extend_extend, WamBuffer.extend_extend]
    exact ⟨_, rfl, List.cons_ne_nil _ _,
      reads_unit hwide (fun h => nomatch h) hread⟩

/-! ### Any sequence of calls -/

/-- The calls the codec is for. -/
def WamCall.InDomain : WamCall → Prop
  | .globalAttribute _ v => v.InDomain
  | .timestamp unixSeconds => (WamWire.int unixSeconds).InDomain
  | .sequence seq => (WamWire.int seq).InDomain
  | .event _ weight _ => (WamWire.int weight).InDomain
  | .field _ v _ => v.InDomain

/-- A call appends one unit, which reads as what the call says. -/
theorem call_spec (b : WamBuffer) {c : WamCall} (h : c.InDomain) :
    ∃ bytes, b.call c = b.extend bytes ∧ bytes ≠ [] ∧ Reads readEntry bytes c.entry := by
  cases c with
  | globalAttribute id v => exact reads_entry b .global false id h
  | timestamp unixSeconds => exact @reads_entry b .global false _ (.int unixSeconds) h
  | sequence seq => exact @reads_entry b .global false _ (.int seq) h
  | event code weight hasFields =>
      have hunit := @reads_entry b .event (!hasFields) code (.int weight) h
      cases hasFields <;> exact hunit
  | field id v more =>
      have hunit := reads_entry b .field (!more) id h
      cases more <;> exact hunit

/-- A sequence of calls appends the units of its calls. -/
theorem calls_spec (b : WamBuffer) {calls : List WamCall} (h : ∀ c ∈ calls, c.InDomain) :
    ∃ units : List (List UInt8 × Entry),
      calls.foldl WamBuffer.call b = b.extend (units.flatMap Prod.fst) ∧
      units.map Prod.snd = calls.map WamCall.entry ∧
      ∀ u ∈ units, Reads readEntry u.1 u.2 ∧ u.1 ≠ [] := by
  induction calls generalizing b with
  | nil => exact ⟨[], (b.extend_nil).symm, rfl, fun _ hu => nomatch hu⟩
  | cons c rest ih =>
      obtain ⟨hc, hrest⟩ := List.forall_mem_cons.mp h
      obtain ⟨bytes, hcall, hne, hread⟩ := call_spec b hc
      obtain ⟨units, hrun, hentries, hunits⟩ := ih (b.call c) hrest
      refine ⟨(bytes, c.entry) :: units, ?_, ?_, ?_⟩
      · rw [List.foldl_cons, hrun, hcall, WamBuffer.extend_extend]
        rfl
      · rw [List.map_cons, hentries]
        rfl
      · exact List.forall_mem_cons.mpr ⟨⟨hread, hne⟩, hunits⟩

/-- The header a buffer starts with reads back. -/
theorem reads_header (protocolVersion : ℤ) (channel : WamChannel) (streamId : UInt8)
    (seq : UInt16) :
    Reads readHeader (WamBuffer.new protocolVersion channel streamId seq).buf
      ⟨UInt8.ofNat (twos 1 protocolVersion), streamId, seq, channel.toByte⟩ := by
  have hseq : Reads (leNat 2) (leBytes 2 seq.toNat) seq.toNat := reads_leNat seq.toNat_lt
  have hbuf : (WamBuffer.new protocolVersion channel streamId seq).buf =
      [0x57, 0x41, 0x4d] ++ ([UInt8.ofNat (twos 1 protocolVersion)] ++
        ([streamId] ++ (leBytes 2 seq.toNat ++ [channel.toByte]))) := by
    simp [WamBuffer.new, leBytes]
  have hheader : (⟨UInt8.ofNat (twos 1 protocolVersion), streamId, seq, channel.toByte⟩ : Header) =
      ⟨UInt8.ofNat (twos 1 protocolVersion), streamId, UInt16.ofNat seq.toNat,
        channel.toByte⟩ := by
    rw [UInt16.ofNat_toNat]
  rw [hbuf, hheader]
  refine Reads.bind (reads_exactly [0x57, 0x41, 0x4d]) ?_
  refine Reads.bind (reads_next _) ?_
  refine Reads.bind (reads_next _) ?_
  refine Reads.bind hseq ?_
  exact Reads.bind_last (reads_next _) fun _ => rfl

/-! ### Where the terminal bit is -/

/-- Whether the calls go on with a field of the event that is open. -/
def continues : List WamCall → Bool
  | [] => false
  | .field _ _ _ :: _ => true
  | .event _ _ _ :: _ => false
  | _ :: rest => continues rest

/-- The interface is called as it says: `hasFields` and `more` are set when another field of
the event follows. -/
def WellFlagged : List WamCall → Prop
  | [] => True
  | .event _ _ hasFields :: rest => hasFields = continues rest ∧ WellFlagged rest
  | .field _ _ more :: rest => more = continues rest ∧ WellFlagged rest
  | _ :: rest => WellFlagged rest

/-- Whether the entries go on with a field of the event that is open. -/
def entriesContinue : List Entry → Bool
  | [] => false
  | e :: rest =>
      match e.marker with
      | .field => true
      | .event => false
      | .global => entriesContinue rest

/-- The terminal bit is on the last entry of each event, and on no other. -/
def Terminated (entries : List Entry) : Prop :=
  ∀ before e after, entries = before ++ e :: after →
    (e.terminal = true ↔ e.marker ≠ .global ∧ entriesContinue after = false)

theorem entriesContinue_map (calls : List WamCall) :
    entriesContinue (calls.map WamCall.entry) = continues calls := by
  induction calls with
  | nil => rfl
  | cons c rest ih => cases c <;> first | rfl | exact ih

theorem Terminated.cons {e : Entry} {rest : List Entry} (h : Terminated rest)
    (he : e.terminal = true ↔ e.marker ≠ .global ∧ entriesContinue rest = false) :
    Terminated (e :: rest) := by
  intro before e' after heq
  cases before with
  | nil =>
      cases heq
      exact he
  | cons e'' before =>
      obtain ⟨-, htail⟩ := List.cons_eq_cons.mp heq
      exact h before e' after htail

/-- **Calls made as the interface says leave the terminal bit where it belongs.** -/
theorem WellFlagged.terminated {calls : List WamCall} (h : WellFlagged calls) :
    Terminated (calls.map WamCall.entry) := by
  induction calls with
  | nil => exact fun before e after heq => by simp at heq
  | cons c rest ih =>
      rw [List.map_cons]
      cases c with
      | globalAttribute id v => exact (ih h).cons (by simp [WamCall.entry])
      | timestamp unixSeconds => exact (ih h).cons (by simp [WamCall.entry])
      | sequence seq => exact (ih h).cons (by simp [WamCall.entry])
      | event code weight hasFields =>
          obtain ⟨hflag, hrest⟩ := h
          exact (ih hrest).cons (by simp [WamCall.entry, entriesContinue_map, hflag])
      | field id v more =>
          obtain ⟨hflag, hrest⟩ := h
          exact (ih hrest).cons (by simp [WamCall.entry, entriesContinue_map, hflag])

/-! ### Events -/

/-- What is written to a buffer through `emit`: events, and global attributes between them. -/
inductive WamRecord where
  | globalAttribute (id : UInt16) (v : WamWire)
  | emit (ev : WamEvent)

def WamBuffer.record (b : WamBuffer) : WamRecord → WamBuffer
  | .globalAttribute id v => b.writeGlobalAttribute id v
  | .emit ev => ev.emit b

/-- The calls the fields of an event make. -/
def fieldCalls : List (UInt16 × WamWire) → List WamCall
  | [] => []
  | (id, v) :: rest => .field id v (!rest.isEmpty) :: fieldCalls rest

def WamRecord.calls : WamRecord → List WamCall
  | .globalAttribute id v => [.globalAttribute id v]
  | .emit ev => .event ev.code (-ev.weight) (!ev.wamFields.isEmpty) :: fieldCalls ev.wamFields

theorem foldl_fieldCalls (fields : List (UInt16 × WamWire)) (b : WamBuffer) :
    (fieldCalls fields).foldl WamBuffer.call b = b.writeFields fields := by
  induction fields generalizing b with
  | nil => rfl
  | cons f rest ih => exact ih _

/-- Records make their calls. -/
theorem foldl_record (records : List WamRecord) (b : WamBuffer) :
    records.foldl WamBuffer.record b =
      (records.flatMap WamRecord.calls).foldl WamBuffer.call b := by
  induction records generalizing b with
  | nil => rfl
  | cons r rest ih =>
      rw [List.foldl_cons, List.flatMap_cons, List.foldl_append, ih]
      cases r with
      | globalAttribute id v => rfl
      | emit ev =>
          have hfields := foldl_fieldCalls ev.wamFields
            (b.writeEvent ev.code (-ev.weight) (!ev.wamFields.isEmpty))
          rw [WamRecord.calls, List.foldl_cons]
          exact congrArg (List.foldl WamBuffer.call · (rest.flatMap WamRecord.calls)) hfields.symm

/-- The fields of an event are flagged, when no field follows them. -/
theorem wellFlagged_fieldCalls {fields : List (UInt16 × WamWire)} {rest : List WamCall}
    (h : WellFlagged rest) (hend : continues rest = false) :
    WellFlagged (fieldCalls fields ++ rest) ∧
      continues (fieldCalls fields ++ rest) = !fields.isEmpty := by
  induction fields with
  | nil => exact ⟨h, hend⟩
  | cons f fields ih =>
      obtain ⟨hflagged, hcontinues⟩ := ih
      exact ⟨⟨hcontinues.symm, hflagged⟩, rfl⟩

/-- **`emit` calls the interface as it says.** -/
theorem wellFlagged_records (records : List WamRecord) :
    WellFlagged (records.flatMap WamRecord.calls) ∧
      continues (records.flatMap WamRecord.calls) = false := by
  induction records with
  | nil => exact ⟨trivial, rfl⟩
  | cons r rest ih =>
      obtain ⟨hflagged, hend⟩ := ih
      rw [List.flatMap_cons]
      cases r with
      | globalAttribute id v => exact ⟨hflagged, hend⟩
      | emit ev =>
          obtain ⟨hfields, hcontinues⟩ :=
            @wellFlagged_fieldCalls ev.wamFields _ hflagged hend
          exact ⟨⟨hcontinues.symm, hfields⟩, rfl⟩

/-! ### The stream -/

/-- Floats other than the negative zero are told apart by their values. -/
theorem float_value_injective {v w : Word} (hv : v ≠ negativeZero) (hw : w ≠ negativeZero)
    (h : (WamWire.float v).value = (WamWire.float w).value) : v = w := by
  simp only [WamWire.value, WamValue.ofWord] at h
  cases hiv : integer v with
  | none =>
      cases hiw : integer w with
      | none =>
          rw [hiv, hiw] at h
          exact WamValue.float.inj h
      | some m =>
          rw [hiv, hiw] at h
          cases h
  | some n =>
      cases hiw : integer w with
      | none =>
          rw [hiv, hiw] at h
          cases h
      | some m =>
          rw [hiv, hiw] at h
          cases h
          rcases value_injective (value_of_integer hiv) (value_of_integer hiw) with heq | hzero
          · exact heq
          · have hone : (one : ℤ) ≠ 0 := by
              rw [one]
              positivity
            obtain rfl : n = 0 := (mul_eq_zero.mp hzero).resolve_right hone
            have hzv := value_of_integer hiv
            have hzw := value_of_integer hiw
            rw [Int.zero_mul] at hzv hzw
            rw [(value_eq_zero hzv).resolve_right hv, (value_eq_zero hzw).resolve_right hw]

/-- **WAM buffers are uniquely decodable.**  The decoder recovers the header and every call,
with its terminal bit.  The bit is on exactly the last entry of each event when the interface
is called as it says, as `emit` calls it; and values that are read as one are one, but for a
boolean and its integer, an integral float and its integer. -/
theorem wamBuffer_uniquely_decodable (protocolVersion : ℤ) (channel : WamChannel)
    (streamId : UInt8) (seq : UInt16) (calls : List WamCall) (h : ∀ c ∈ calls, c.InDomain) :
    readBuffer (calls.foldl WamBuffer.call
        (WamBuffer.new protocolVersion channel streamId seq)).buf =
      some (⟨UInt8.ofNat (twos 1 protocolVersion), streamId, seq, channel.toByte⟩,
        calls.map WamCall.entry) ∧
    (WellFlagged calls → Terminated (calls.map WamCall.entry)) ∧
    (∀ (records : List WamRecord) (b : WamBuffer),
      records.foldl WamBuffer.record b =
        (records.flatMap WamRecord.calls).foldl WamBuffer.call b ∧
      WellFlagged (records.flatMap WamRecord.calls)) ∧
    ∀ v w : Word, v ≠ negativeZero → w ≠ negativeZero →
      (WamWire.float v).value = (WamWire.float w).value → v = w := by
  refine ⟨?_, WellFlagged.terminated, fun records b => ⟨foldl_record records b,
    (wellFlagged_records records).1⟩, fun v w hv hw => float_value_injective hv hw⟩
  obtain ⟨units, hrun, hentries, hunits⟩ :=
    calls_spec (WamBuffer.new protocolVersion channel streamId seq) h
  rw [hrun, readBuffer, WamBuffer.extend,
    reads_header protocolVersion channel streamId seq (units.flatMap Prod.fst)]
  simp only
  rw [reads_all hunits (Nat.le_refl _), hentries]
  rfl

/-- A global attribute, and an event with a text and an integer. -/
def sampleCalls : List WamCall :=
  [.globalAttribute 3433 (.bool true), .event 1000 (-1) true, .field 2 (.str "hi") true,
    .field 300 (.int 42) false]

theorem sampleCalls_decode :
    readBuffer (sampleCalls.foldl WamBuffer.call (WamBuffer.new 5 .regular 7 3)).buf =
      some (⟨5, 7, 3, 0⟩,
        [⟨.global, 3433, .int 1, false⟩, ⟨.event, 1000, .int (-1), false⟩,
          ⟨.field, 2, .str "hi", false⟩, ⟨.field, 300, .int 42, true⟩]) := by
  have hdomain : ∀ c ∈ sampleCalls, c.InDomain := by
    simp only [sampleCalls, List.forall_mem_cons, WamCall.InDomain, WamWire.InDomain]
    exact ⟨trivial, by decide, by decide, by decide, fun _ h => nomatch h⟩
  exact (wamBuffer_uniquely_decodable 5 .regular 7 3 sampleCalls hdomain).1

end Whatspec.Codegen
