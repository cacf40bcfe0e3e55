import Whatspec.Library.Binary64
import Whatspec.Library.Readers
import Whatspec.Text

/-!
# The WAM wire codec

`WamBuffer` is the encoder of the generated WAM module.  A buffer is a header and a sequence of
entries, each `[flags][id][value]`: the flags hold a marker, the terminal bit, the width of the
id and the class of the value.

* `writeNum` sends a number that is a 32-bit integer in the smallest class that holds it, and
  any other as the word it is;
* `WamCall` is one call of the buffer's interface, and `WamEvent.emit` the calls an event makes.

`Entry` is what a call says, and `readBuffer` reads a buffer back: it is written from the format,
not from the encoder.
-/

namespace Whatspec.Codegen

open Whatspec.Library Whatspec.Library.Binary64 Whatspec.Library.Reader Whatspec.Text

/-! ### The encoder -/

inductive WamChannel where
  | regular
  | realtime
  | «private»
  deriving DecidableEq

/-- A channel as a byte. -/
def WamChannel.toByte : WamChannel → UInt8
  | .regular => 0
  | .realtime => 1
  | .private => 2

/-- A WAM value at the wire boundary. -/
inductive WamWire where
  | int (n : ℤ)
  | float (w : Word)
  | bool (b : Bool)
  | str (s : String)
  deriving DecidableEq

def mGlobal : UInt8 := 0
def mEvent : UInt8 := 1
def mField : UInt8 := 2
def terminal : UInt8 := 4
def wideId : UInt8 := 8

structure WamBuffer where
  buf : List UInt8

namespace WamBuffer

/-- Append bytes. -/
def extend (b : WamBuffer) (bytes : List UInt8) : WamBuffer := ⟨b.buf ++ bytes⟩

/-- Start a buffer with its header. -/
def new (protocolVersion : ℤ) (channel : WamChannel) (streamId : UInt8) (seq : UInt16) :
    WamBuffer :=
  ⟨[0x57, 0x41, 0x4d] ++ leBytes 1 (twos 1 protocolVersion) ++ [streamId]
    ++ leBytes 2 seq.toNat ++ [channel.toByte]⟩

def tag (b : WamBuffer) (flags : UInt8) (id : UInt16) : WamBuffer :=
  if id.toNat < 256 then (b.extend [flags]).extend (leBytes 1 id.toNat)
  else (b.extend [flags ||| wideId]).extend (leBytes 2 id.toNat)

/-- Encode a number: a 32-bit integer in the smallest class, anything else as it is. -/
def writeNum (b : WamBuffer) (flags : UInt8) (id : UInt16) (v : Word) : WamBuffer :=
  if eq v (ofInt (toI32 v)) then
    let n := toI32 v
    if n = 0 then b.tag (flags ||| 0x10) id
    else if n = 1 then b.tag (flags ||| 0x20) id
    else if -128 ≤ n ∧ n ≤ 127 then (b.tag (flags ||| 0x30) id).extend (leBytes 1 (twos 1 n))
    else if -32768 ≤ n ∧ n ≤ 32767 then
      (b.tag (flags ||| 0x40) id).extend (leBytes 2 (twos 2 n))
    else (b.tag (flags ||| 0x50) id).extend (leBytes 4 (twos 4 n))
  else (b.tag (flags ||| 0x70) id).extend (leBytes 8 v.toNat)

def writeValue (b : WamBuffer) (flags : UInt8) (id : UInt16) : WamWire → WamBuffer
  | .bool v => b.writeNum flags id (if v then ofInt 1 else ofInt 0)
  | .int n => b.writeNum flags id (ofInt n)
  | .float w => b.writeNum flags id w
  | .str s =>
      let len := (utf8 s).length
      let tagged :=
        if len < 256 then (b.tag (flags ||| 0x80) id).extend (leBytes 1 len)
        else if len < 65536 then (b.tag (flags ||| 0x90) id).extend (leBytes 2 len)
        else (b.tag (flags ||| 0xA0) id).extend (leBytes 4 len)
      tagged.extend (utf8 s)

/-- A buffer-level global attribute. -/
def writeGlobalAttribute (b : WamBuffer) (id : UInt16) (v : WamWire) : WamBuffer :=
  b.writeValue mGlobal id v

def timestampField : UInt16 := 47
def sequenceField : UInt16 := 3433

def writeTimestamp (b : WamBuffer) (unixSeconds : ℤ) : WamBuffer :=
  b.writeGlobalAttribute timestampField (.int unixSeconds)

def writeSequence (b : WamBuffer) (seq : ℤ) : WamBuffer :=
  b.writeGlobalAttribute sequenceField (.int seq)

/-- Begin an event record. -/
def writeEvent (b : WamBuffer) (code : UInt16) (weight : ℤ) (hasFields : Bool) : WamBuffer :=
  b.writeValue (if hasFields then mEvent else mEvent ||| terminal) code (.int weight)

/-- Write one field of the current event. -/
def writeField (b : WamBuffer) (id : UInt16) (v : WamWire) (more : Bool) : WamBuffer :=
  b.writeValue (if more then mField else mField ||| terminal) id v

end WamBuffer

/-- A typed event, with its set fields. -/
structure WamEvent where
  code : UInt16
  weight : ℤ
  wamFields : List (UInt16 × WamWire)

/-- Write the fields of an event from one on; the last one is terminal. -/
def WamBuffer.writeFields (b : WamBuffer) : List (UInt16 × WamWire) → WamBuffer
  | [] => b
  | (id, v) :: rest => (b.writeField id v (!rest.isEmpty)).writeFields rest

/-- Write the event record, then its fields. -/
def WamEvent.emit (ev : WamEvent) (b : WamBuffer) : WamBuffer :=
  (b.writeEvent ev.code (-ev.weight) (!ev.wamFields.isEmpty)).writeFields ev.wamFields

/-! ### Calls and what they say -/

/-- One call of the buffer's interface. -/
inductive WamCall where
  | globalAttribute (id : UInt16) (v : WamWire)
  | timestamp (unixSeconds : ℤ)
  | sequence (seq : ℤ)
  | event (code : UInt16) (weight : ℤ) (hasFields : Bool)
  | field (id : UInt16) (v : WamWire) (more : Bool)

def WamBuffer.call (b : WamBuffer) : WamCall → WamBuffer
  | .globalAttribute id v => b.writeGlobalAttribute id v
  | .timestamp unixSeconds => b.writeTimestamp unixSeconds
  | .sequence seq => b.writeSequence seq
  | .event code weight hasFields => b.writeEvent code weight hasFields
  | .field id v more => b.writeField id v more

/-- A value, with a boolean read as 0 or 1 and a float that is an integer as that integer. -/
inductive WamValue where
  | int (n : ℤ)
  | float (w : Word)
  | str (s : String)
  deriving DecidableEq

/-- The value of a double. -/
def WamValue.ofWord (w : Word) : WamValue :=
  match integer w with
  | some n => .int n
  | none => .float w

def WamWire.value : WamWire → WamValue
  | .int n => .int n
  | .float w => .ofWord w
  | .bool b => .int (if b then 1 else 0)
  | .str s => .str s

inductive Marker where
  | global
  | event
  | field
  deriving DecidableEq

/-- One entry of a buffer. -/
structure Entry where
  marker : Marker
  id : UInt16
  value : WamValue
  terminal : Bool
  deriving DecidableEq

/-- What a call says. -/
def WamCall.entry : WamCall → Entry
  | .globalAttribute id v => ⟨.global, id, v.value, false⟩
  | .timestamp unixSeconds => ⟨.global, WamBuffer.timestampField, .int unixSeconds, false⟩
  | .sequence seq => ⟨.global, WamBuffer.sequenceField, .int seq, false⟩
  | .event code weight hasFields => ⟨.event, code, .int weight, !hasFields⟩
  | .field id v more => ⟨.field, id, v.value, !more⟩

/-! ### The decoder -/

/-- The marker in the two lowest bits of the flags. -/
def readMarker (flags : UInt8) : Option Marker :=
  if flags &&& 3 = 0 then some .global
  else if flags &&& 3 = 1 then some .event
  else if flags &&& 3 = 2 then some .field
  else none

/-- A text behind its length, which takes `k` bytes. -/
def readStr (k : ℕ) : Reader UInt8 WamValue := do
  let len ← leNat k
  let bytes ← exactly len
  let s ← given (readUtf8 bytes)
  pure (.str s)

/-- The value of a class. -/
def readValue (sizeClass : UInt8) : Reader UInt8 WamValue :=
  if sizeClass = 0x10 then pure (.int 0)
  else if sizeClass = 0x20 then pure (.int 1)
  else if sizeClass = 0x30 then .int <$> leInt 1
  else if sizeClass = 0x40 then .int <$> leInt 2
  else if sizeClass = 0x50 then .int <$> leInt 4
  else if sizeClass = 0x70 then (fun n => .ofWord (BitVec.ofNat 64 n)) <$> leNat 8
  else if sizeClass = 0x80 then readStr 1
  else if sizeClass = 0x90 then readStr 2
  else if sizeClass = 0xA0 then readStr 4
  else given none

def readEntry : Reader UInt8 Entry := do
  let flags ← next
  let marker ← given (readMarker flags)
  let id ← leNat (if flags &&& 8 = 0 then 1 else 2)
  let value ← readValue (flags &&& 0xF0)
  pure ⟨marker, UInt16.ofNat id, value, flags &&& 4 ≠ 0⟩

/-- The header of a buffer: the version byte, the stream, the sequence number and the channel
byte. -/
structure Header where
  version : UInt8
  streamId : UInt8
  seq : UInt16
  channel : UInt8
  deriving DecidableEq

def readHeader : Reader UInt8 Header := do
  let magic ← exactly 3
  let version ← next
  let streamId ← next
  let seq ← leNat 2
  let channel ← next
  given (if magic = [0x57, 0x41, 0x4d] then some ⟨version, streamId, UInt16.ofNat seq, channel⟩
    else none)

/-- The header and the entries of a buffer. -/
def readBuffer (bytes : List UInt8) : Option (Header × List Entry) :=
  match readHeader.run bytes with
  | none => none
  | some (header, rest) => (Reader.all readEntry rest.length rest).map (header, ·)

end Whatspec.Codegen
