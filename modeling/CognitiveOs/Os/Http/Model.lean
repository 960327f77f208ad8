import CognitiveOs.Infra.Scan
import Mathlib.Algebra.Group.Int.Defs

/-!
# Plain HTTP responses

The socket side of `os/linux/http.c`. A wire is what a connection has still to deliver: every
byte, and whether it is the last one of the block it was received in.
-/

namespace CognitiveOs.Http

open Infra

abbrev Wire := List (UInt8 × Bool)

def newline : UInt8 := 10

def carriageReturn : UInt8 := 13

def markBlock : Text → Wire
  | [] => []
  | [byte] => [(byte, true)]
  | byte :: rest => (byte, false) :: markBlock rest

def wireOf (blocks : List Text) : Wire :=
  blocks.flatMap markBlock

def Wire.bytes (w : Wire) : Text :=
  w.map Prod.fst

inductive ChunkState where
  | size
  | data
  | crlf
  | done
  deriving DecidableEq

/-- `struct http_stream` of a plain socket. -/
structure Stream where
  wire : Wire
  /-- The connection fails or times out at its end, instead of being closed. -/
  broken : Bool := false
  readFailed : Bool := false
  chunked : Bool := false
  chunkRemaining : Nat := 0
  cstate : ChunkState := .data
  /-- -1 when it is not known. -/
  contentRemaining : Int := -1
  status : Nat := 0

namespace Stream

/-- `http_fill` finds nothing more to read. -/
def fail (h : Stream) : Stream :=
  { h with
    wire := []
    readFailed := h.readFailed || h.broken || 0 < h.contentRemaining ||
      (h.chunked && h.cstate ≠ .done) }

/-- `http_getc`. -/
def getc (h : Stream) : Option (UInt8 × Bool) × Stream :=
  match h.wire with
  | [] => (none, h.fail)
  | byte :: wire => (some byte, { h with wire })

end Stream

/-- A buffer of `cap` bytes takes a character while there is room. -/
def putc (cap : Nat) (line : Text) (c : UInt8) : Text :=
  if line.length + 1 < cap then line ++ [c] else line

/-- `http_raw_line`, after `line`; also the size line of a chunk. -/
def rawLine (cap : Nat) : Wire → Text → Option (Text × Wire)
  | [], _ => none
  | (c, _) :: wire, line =>
    if c = newline then some (line, wire)
    else if c = carriageReturn then rawLine cap wire line
    else rawLine cap wire (putc cap line c)

/-! ### The head -/

def toLower (c : UInt8) : UInt8 :=
  if 65 ≤ c ∧ c ≤ 90 then c + 32 else c

/-- `strtoll` to the base 10. -/
def strtoll (s : Text) : Int :=
  let s := s.dropWhile isSpace
  let (negative, s) :=
    match s with
    | 45 :: rest => (true, rest)
    | 43 :: rest => (false, rest)
    | _ => (false, s)
  let value := digitsValue (s.takeWhile isDigit)
  if negative then - (min value (2 ^ 63) : Int) else min value (2 ^ 63 - 1)

structure Framing where
  chunked : Bool := false
  contentLen : Int := -1
  deriving DecidableEq

def readHeader (f : Framing) (line : Text) : Framing :=
  let line := cstr line
  let name := (line.take 250).map toLower
  if (ascii "transfer-encoding:").isPrefixOf name && (strstr (ascii "chunked") line).isSome then
    { f with chunked := true }
  else if (ascii "content-length:").isPrefixOf name then
    { f with contentLen := strtoll ((line.dropWhile (· ≠ 58)).drop 1) }
  else f

def headerLines (cap : Nat) : Wire → Text → Option (List Text × Wire)
  | [], _ => none
  | (c, _) :: wire, line =>
    if c = newline then
      if cstr line = [] then some ([], wire)
      else (headerLines cap wire []).map fun (lines, wire) => (line :: lines, wire)
    else if c = carriageReturn then headerLines cap wire line
    else headerLines cap wire (putc cap line c)

def statusOf (line : Text) : Option Nat :=
  let line := cstr line
  if (ascii "HTTP/1.").isPrefixOf line then
    let rest := ((line.drop 7).dropWhile (· ≠ 32)).dropWhile (· = 32)
    some (digitsValue (rest.takeWhile isDigit))
  else none

def parseResponseHead (wire : Wire) (broken : Bool) : Option Stream :=
  match rawLine 1024 wire [] with
  | none => none
  | some (line, wire) =>
    match statusOf line with
    | none => none
    | some status =>
      (headerLines 1024 wire []).map fun (lines, wire) =>
        let f := lines.foldl readHeader {}
        { wire, broken, status
          chunked := f.chunked
          contentRemaining := f.contentLen
          cstate := if f.chunked then .size else .data }

/-! ### The body -/

def hexValue? (c : UInt8) : Option Nat :=
  let c := toLower c
  if 48 ≤ c ∧ c ≤ 57 then some (c.toNat - 48)
  else if 97 ≤ c ∧ c ≤ 102 then some (c.toNat - 87)
  else none

def hexPrefix : Nat → Text → Nat
  | v, [] => v
  | v, c :: rest =>
    match hexValue? c with
    | some digit => hexPrefix (16 * v + digit) rest
    | none => v

/-- `parse_chunk_size`, which wraps when the number does not fit. -/
def parseChunkSize (line : Text) : Int :=
  (BitVec.ofNat 64 (hexPrefix 0 (cstr line))).toInt

namespace Stream

def takeData (h : Stream) : Option (UInt8 × Bool) × Stream :=
  match h.wire with
  | [] => (none, h.fail)
  | byte :: wire => (some byte, { h with wire, chunkRemaining := h.chunkRemaining - 1 })

def readSize (h : Stream) : Option (UInt8 × Bool) × Stream :=
  match rawLine 128 h.wire [] with
  | none => (none, h.fail)
  | some (line, wire) =>
    let size := parseChunkSize line
    if size ≤ 0 then (none, { h with wire, cstate := .done })
    else takeData { h with wire, chunkRemaining := size.toNat, cstate := .data }

def skipCrlf (h : Stream) : Option (UInt8 × Bool) × Stream :=
  match h.wire.dropWhile fun c => c.1 ≠ newline with
  | [] => (none, h.fail)
  | _ :: wire => readSize { h with wire, cstate := .size }

def decodeGetc (h : Stream) : Option (UInt8 × Bool) × Stream :=
  if h.chunked then
    match h.cstate with
    | .done => (none, h)
    | .data => if h.chunkRemaining = 0 then skipCrlf { h with cstate := .crlf } else takeData h
    | .crlf => skipCrlf h
    | .size => readSize h
  else if h.contentRemaining = 0 then (none, h)
  else
    match h.getc with
    | (none, h) => (none, h)
    | (some byte, h) =>
      (some byte, if 0 < h.contentRemaining then { h with contentRemaining := h.contentRemaining - 1 } else h)

/-- `http_stream_read` into a buffer with this room: at most one received block, and no byte
of another chunk. -/
def read : Nat → Stream → Text × Stream
  | 0, h => ([], h)
  | room + 1, h =>
    match h.decodeGetc with
    | (none, h) => ([], h)
    | (some (c, last), h) =>
      if last || (h.chunked && h.cstate = .data && h.chunkRemaining = 0) then ([c], h)
      else
        let (out, h) := read room h
        (c :: out, h)

/-- The loop of `http_full` over the reads; every round reads at least a byte. -/
def readAll : Nat → Stream → Text → Text × Stream
  | 0, h, body => (body, h)
  | rounds + 1, h, body =>
    match h.read 8192 with
    | ([], h) => (body, h)
    | (out, h) =>
      if 64 * 1024 * 1024 < (body ++ out).length then (body ++ out, h)
      else readAll rounds h (body ++ out)

end Stream

structure Response where
  status : Nat
  body : Text
  bodyLen : Nat
  deriving DecidableEq

/-- `http_full` on what the connection delivers. -/
def httpFull (wire : Wire) (broken : Bool) : Option Response :=
  match parseResponseHead wire broken with
  | none => none
  | some h =>
    let (body, end') := h.readAll (h.wire.length + 1) []
    if end'.readFailed then none
    else some { status := h.status, body, bodyLen := (cstr body).length }

end CognitiveOs.Http
