import Mathlib.Data.List.TakeWhile
import ScalaRs.LineStreams

/-! # Reading lines of the macro protocol

The bounded line readers on the two sides of the macro protocol: the compiler reads bytes, with and
without a deadline, and the engine reads UTF-16 units. -/
namespace ScalaRs.WireLines
open LineStreams

inductive ErrorKind
  | timedOut | invalidData
deriving DecidableEq

structure IoError where
  kind : ErrorKind
  message : String
deriving DecidableEq

/-- `b'\n'` -/
def newlineByte : UInt8 := 10

def wireLine (total : ℕ) (bytes : List UInt8) : Except IoError (ℕ × String) :=
  match String.fromUTF8? bytes.toByteArray with
  | some line => .ok (total, line)
  | none => .error ⟨.invalidData, "macro protocol line is not UTF-8"⟩

def exceeds (limit : ℕ) (unit : String) : String :=
  "macro protocol line exceeds " ++ toString limit ++ " " ++ unit

def takeLength (available : List UInt8) : ℕ :=
  ((available.idxOf? newlineByte).map (· + 1)).getD available.length

theorem takeLength_of_mem {available : List UInt8} (h : newlineByte ∈ available) :
    takeLength available = available.idxOf newlineByte + 1 := by
  obtain ⟨i, hi⟩ := Option.ne_none_iff_exists'.1 (mt List.idxOf?_eq_none_iff.1 (not_not.2 h))
  rw [takeLength, hi, List.idxOf_eq_getD_idxOf?, hi]
  rfl

theorem takeLength_of_notMem {available : List UInt8} (h : newlineByte ∉ available) :
    takeLength available = available.length := by
  rw [takeLength, List.idxOf?_eq_none_iff.2 h]
  rfl

theorem takeLength_pos {available : List UInt8} (h : available ≠ []) : 0 < takeLength available := by
  by_cases hmem : newlineByte ∈ available
  · rw [takeLength_of_mem hmem]
    exact Nat.succ_pos _
  · rw [takeLength_of_notMem hmem]
    exact List.length_pos_iff.2 h

theorem stream_consume_fillBuf_length {α : Type} {reader : Reader α} {n : ℕ} (hn : 0 < n)
    (h : reader.fillBuf.buffer ≠ []) :
    (reader.fillBuf.consume n).stream.length < reader.stream.length := by
  rw [← reader.stream_fillBuf]
  exact Reader.stream_consume_length hn h

/-- The loop of `read_wire_line_with_limit`. A slice and a vector have at most `isize::MAX` bytes,
so their lengths add up without overflow. -/
def lineLoop (limit total : ℕ) (bytes : List UInt8) (reader : Reader UInt8) :
    Except IoError (ℕ × String) × Reader UInt8 :=
  let available := reader.fillBuf.buffer
  if available = [] then (wireLine total bytes, reader.fillBuf)
  else
    let take := takeLength available
    if limit < total + take then
      (.error ⟨.invalidData, exceeds limit "bytes"⟩, reader.fillBuf)
    else
      let bytes := bytes ++ available.take take
      if newlineByte ∈ available then
        (wireLine (total + take) bytes, reader.fillBuf.consume take)
      else lineLoop limit (total + take) bytes (reader.fillBuf.consume take)
termination_by reader.stream.length
decreasing_by exact stream_consume_fillBuf_length (takeLength_pos ‹_›) ‹_›

def readWireLineWithLimit (limit : ℕ) (reader : Reader UInt8) :
    Except IoError (ℕ × String) × Reader UInt8 :=
  lineLoop limit 0 [] reader

/-- The output of the engine, with what the next calls of `wait_readable` return. -/
structure EngineOutput where
  reader : Reader UInt8
  waits : ℕ → Except IoError Bool

def EngineOutput.waited (output : EngineOutput) : EngineOutput :=
  { output with waits := fun n => output.waits (n + 1) }

/-- A wait if the buffer is empty. -/
def waitIfEmpty (output : EngineOutput) : Except IoError Bool × EngineOutput :=
  if output.reader.buffer = [] then (output.waits 0, output.waited) else (.ok true, output)

theorem waitIfEmpty_reader (output : EngineOutput) :
    (waitIfEmpty output).2.reader = output.reader := by
  unfold waitIfEmpty
  split <;> rfl

/-- The loop of `read_wire_line_before`. -/
def lineBeforeLoop (limit total : ℕ) (bytes : List UInt8) (output : EngineOutput) :
    Except IoError (ℕ × String) × EngineOutput :=
  let output' := (waitIfEmpty output).2
  match (waitIfEmpty output).1 with
  | .error e => (.error e, output')
  | .ok false => (.error ⟨.timedOut, "the macro engine did not reply in time"⟩, output')
  | .ok true =>
      let filled := output'.reader.fillBuf
      if filled.buffer = [] then (wireLine total bytes, { output' with reader := filled })
      else
        let take := takeLength filled.buffer
        if limit < total + take then
          (.error ⟨.invalidData, exceeds limit "bytes"⟩, { output' with reader := filled })
        else
          let bytes := bytes ++ filled.buffer.take take
          let output' := { output' with reader := filled.consume take }
          if newlineByte ∈ filled.buffer then (wireLine (total + take) bytes, output')
          else lineBeforeLoop limit (total + take) bytes output'
termination_by output.reader.stream.length
decreasing_by
  rw [← waitIfEmpty_reader output]
  exact stream_consume_fillBuf_length (takeLength_pos ‹_›) ‹_›

def readWireLineBefore (limit : ℕ) (output : EngineOutput) :
    Except IoError (ℕ × String) × EngineOutput :=
  lineBeforeLoop limit 0 [] output

/-! ## The engine -/

def newlineUnit : UInt16 := 10

def returnUnit : UInt16 := 13

/-- `source.read(chars, 0, size)`: at most `size` units of the next chunk. -/
def readUnits (reader : Reader UInt16) (size : ℕ) : Reader UInt16 :=
  match h : reader.reads with
  | [] => reader
  | chunk :: reads =>
      if hrest : chunk.drop size = [] then
        ⟨chunk.take size, reads, fun c hc => reader.nonempty c (h ▸ List.mem_cons_of_mem _ hc)⟩
      else
        ⟨chunk.take size, chunk.drop size :: reads, fun c hc =>
          (List.mem_cons.1 hc).elim (fun heq => heq ▸ hrest)
            fun hc => reader.nonempty c (h ▸ List.mem_cons_of_mem _ hc)⟩

/-- The units read ahead: a read if there are none. It asks for one more than may still come. -/
def unitsAhead (limit seen : ℕ) (reader : Reader UInt16) : Reader UInt16 :=
  if reader.buffer = [] then readUnits reader (min 8192 (limit - seen + 1)) else reader

/-- CRLF is transport; all other CR characters are payload. -/
def withoutReturn (line : List UInt16) : List UInt16 :=
  if line.getLast? = some returnUnit then line.dropLast else line

/-- The units up to the end of the line. -/
def textLength (units : List UInt16) : ℕ := (units.takeWhile (· ≠ newlineUnit)).length

theorem stream_unitsAhead (limit seen : ℕ) (reader : Reader UInt16) :
    (unitsAhead limit seen reader).stream = reader.stream := by
  unfold unitsAhead
  split
  · rename_i hbuffer
    unfold readUnits
    split
    · rfl
    · rename_i chunk reads hreads
      have hsplit := List.take_append_drop (min 8192 (limit - seen + 1)) chunk
      split
      · rename_i hrest
        rw [hrest, List.append_nil] at hsplit
        simp [Reader.stream, hbuffer, hreads, hsplit]
      · simp only [Reader.stream, hbuffer, hreads, List.flatten_cons, List.nil_append]
        rw [← List.append_assoc, hsplit]
  · rfl

theorem stream_eq_nil_of_unitsAhead {limit seen : ℕ} {reader : Reader UInt16}
    (h : (unitsAhead limit seen reader).buffer = []) : reader.stream = [] := by
  unfold unitsAhead at h
  split at h
  · rename_i hbuffer
    unfold readUnits at h
    split at h
    · rename_i hreads
      simp [Reader.stream, hbuffer, hreads]
    · rename_i chunk reads hreads
      have hchunk : chunk ≠ [] := reader.nonempty chunk (by rw [hreads]; exact List.mem_cons_self)
      have htake : chunk.take (min 8192 (limit - seen + 1)) ≠ [] := by
        rw [ne_eq, List.take_eq_nil_iff, not_or]
        exact ⟨by omega, hchunk⟩
      split at h
      · exact absurd h htake
      · exact absurd h htake
  · exact absurd h ‹_›

/-- The loop of `WireReader.readLine`. -/
def readLineLoop (limit : ℕ) (sb : Option (List UInt16)) (seen : ℕ) (reader : Reader UInt16) :
    Except String (Option (List UInt16)) × Reader UInt16 :=
  let ahead := unitsAhead limit seen reader
  if ahead.buffer = [] then (.ok (if seen = 0 then none else some (sb.getD [])), ahead)
  else
    let length := textLength ahead.buffer
    if limit < seen + length then
      (.error (exceeds limit "characters"), ahead.consume (limit - seen + 1))
    else
      let text := sb.getD [] ++ ahead.buffer.take length
      if length < ahead.buffer.length then
        (.ok (some (withoutReturn text)), ahead.consume (length + 1))
      else readLineLoop limit (some text) (seen + length) (ahead.consume length)
termination_by reader.stream.length
decreasing_by
  rw [← stream_unitsAhead limit seen reader]
  have hpos := List.length_pos_iff.2 ‹ahead.buffer ≠ []›
  have hlength : 0 < length := by omega
  exact Reader.stream_consume_length hlength ‹_›

def readLine (limit : ℕ) (reader : Reader UInt16) :
    Except String (Option (List UInt16)) × Reader UInt16 :=
  readLineLoop limit none 0 reader

/-! ## What the calls return -/

/-- A line is an error if it is longer than the limit or not UTF-8. -/
def lineResult (limit : ℕ) (line : List UInt8) : Except IoError (ℕ × String) :=
  if limit < line.length then .error ⟨.invalidData, exceeds limit "bytes"⟩
  else wireLine line.length line

/-- A line without its terminator, LF or CRLF. -/
def payload (line : List UInt16) : List UInt16 :=
  if newlineUnit ∈ line then withoutReturn line.dropLast else line

section
variable {reader : Reader UInt8}

/-- The end of the line is in the buffer: it is what is taken. -/
theorem splitLine_of_mem_buffer (h : newlineByte ∈ reader.fillBuf.buffer) :
    splitLine newlineByte reader.stream =
      (reader.fillBuf.buffer.take (takeLength reader.fillBuf.buffer),
        (reader.fillBuf.consume (takeLength reader.fillBuf.buffer)).stream) := by
  rw [← Reader.stream_fillBuf, Reader.stream, splitLine_append_of_mem h, splitLine_of_idxOf h,
    takeLength_of_mem h]
  rfl

/-- The line goes on after the buffer. -/
theorem splitLine_of_notMem_buffer (h : newlineByte ∉ reader.fillBuf.buffer) :
    splitLine newlineByte reader.stream =
      (reader.fillBuf.buffer ++ (splitLine newlineByte (reader.fillBuf.consume
        (takeLength reader.fillBuf.buffer)).stream).1,
        (splitLine newlineByte (reader.fillBuf.consume
          (takeLength reader.fillBuf.buffer)).stream).2) := by
  have hrest : (reader.fillBuf.consume (takeLength reader.fillBuf.buffer)).stream =
      reader.fillBuf.reads.flatten := by
    simp [Reader.stream, Reader.consume, takeLength_of_notMem h]
  rw [hrest, ← Reader.stream_fillBuf, Reader.stream, splitLine_append_of_notMem h]

/-- What is taken in one turn begins the line. -/
theorem takeLength_le_length (reader : Reader UInt8) : takeLength reader.fillBuf.buffer ≤
    (splitLine newlineByte reader.stream).1.length := by
  by_cases h : newlineByte ∈ reader.fillBuf.buffer
  · rw [splitLine_of_mem_buffer h, List.length_take, takeLength_of_mem h]
    have := List.idxOf_lt_length_of_mem h
    omega
  · rw [splitLine_of_notMem_buffer h, List.length_append, takeLength_of_notMem h]
    exact Nat.le_add_right _ _

end

/-- One line is read: the bytes so far with the rest of it. -/
theorem lineLoop_spec {limit total : ℕ} {bytes : List UInt8} {reader : Reader UInt8}
    (htotal : total ≤ limit) :
    (lineLoop limit total bytes reader).1 =
        (if limit < total + (splitLine newlineByte reader.stream).1.length then
          .error ⟨.invalidData, exceeds limit "bytes"⟩
        else
          wireLine (total + (splitLine newlineByte reader.stream).1.length)
            (bytes ++ (splitLine newlineByte reader.stream).1)) ∧
      (total + (splitLine newlineByte reader.stream).1.length ≤ limit →
        (lineLoop limit total bytes reader).2.stream = (splitLine newlineByte reader.stream).2) := by
  fun_induction lineLoop limit total bytes reader with
  | case1 total bytes reader available hempty =>
      have hnil := Reader.stream_eq_nil hempty
      rw [Reader.stream_fillBuf, hnil]
      simp [Nat.not_lt.2 htotal]
  | case2 total bytes reader available hne take hlimit =>
      have hlength : take ≤ _ := takeLength_le_length reader
      rw [if_pos (by omega)]
      exact ⟨rfl, fun h => by omega⟩
  | case3 total bytes reader available hne take hlimit bytes' hmem =>
      have hlength : take ≤ available.length := by
        have := List.idxOf_lt_length_of_mem hmem
        rw [show take = _ from takeLength_of_mem hmem]
        omega
      rw [splitLine_of_mem_buffer hmem, List.length_take, Nat.min_eq_left hlength, if_neg hlimit]
      exact ⟨rfl, fun _ => rfl⟩
  | case4 total bytes reader available hne take hlimit bytes' hmem ih =>
      have htake := takeLength_of_notMem hmem
      have hbytes : bytes' = bytes ++ reader.fillBuf.buffer := by
        simp [bytes', take, htake, available]
      rw [hbytes] at ih ⊢
      rw [splitLine_of_notMem_buffer hmem, List.length_append, ← htake, ← Nat.add_assoc,
        ← List.append_assoc]
      exact ih (Nat.not_lt.1 hlimit)

/-- The buffered bytes that were read ahead are no matter: one call takes one line. -/
theorem readWireLineWithLimit_line (limit : ℕ) (reader : Reader UInt8) :
    (readWireLineWithLimit limit reader).1 =
        lineResult limit (splitLine newlineByte reader.stream).1 ∧
      ∀ b, (readWireLineWithLimit limit reader).1 = .ok b →
        (readWireLineWithLimit limit reader).2.stream =
          (splitLine newlineByte reader.stream).2 := by
  obtain ⟨hresult, hstream⟩ := @lineLoop_spec limit 0 [] reader (Nat.zero_le limit)
  simp only [Nat.zero_add, List.nil_append] at hresult hstream
  refine ⟨hresult, fun b hb => hstream ?_⟩
  rw [readWireLineWithLimit, hresult] at hb
  split at hb
  · cases hb
  · omega

/-- Until the deadline has passed, waiting makes no difference. -/
theorem lineBeforeLoop_eq {limit total : ℕ} {bytes : List UInt8} {output : EngineOutput}
    (hwaits : ∀ n, output.waits n = .ok true) :
    (lineBeforeLoop limit total bytes output).1 =
        (lineLoop limit total bytes output.reader).1 ∧
      (lineBeforeLoop limit total bytes output).2.reader =
        (lineLoop limit total bytes output.reader).2 ∧
      ∀ n, (lineBeforeLoop limit total bytes output).2.waits n = .ok true := by
  have hwait (output : EngineOutput) (h : ∀ n, output.waits n = .ok true) :
      (waitIfEmpty output).1 = .ok true ∧ ∀ n, (waitIfEmpty output).2.waits n = .ok true := by
    unfold waitIfEmpty
    split
    · exact ⟨h 0, fun n => h (n + 1)⟩
    · exact ⟨rfl, h⟩
  fun_induction lineBeforeLoop limit total bytes output with
  | case1 total bytes output output' e he =>
      rw [(hwait output hwaits).1] at he
      cases he
  | case2 total bytes output output' he =>
      rw [(hwait output hwaits).1] at he
      cases he
  | case3 total bytes output output' he filled hempty =>
      have hfilled : filled = output.reader.fillBuf :=
        congrArg Reader.fillBuf (waitIfEmpty_reader output)
      rw [lineLoop, if_pos (hfilled ▸ hempty), ← hfilled]
      exact ⟨rfl, rfl, (hwait output hwaits).2⟩
  | case4 total bytes output output' he filled hempty take hlimit =>
      have hfilled : filled = output.reader.fillBuf :=
        congrArg Reader.fillBuf (waitIfEmpty_reader output)
      rw [lineLoop, ← hfilled, if_neg hempty, if_pos hlimit]
      exact ⟨rfl, rfl, (hwait output hwaits).2⟩
  | case5 total bytes output output' he filled hempty take hlimit bytes' output'' hmem =>
      have hfilled : filled = output.reader.fillBuf :=
        congrArg Reader.fillBuf (waitIfEmpty_reader output)
      rw [lineLoop, ← hfilled, if_neg hempty, if_neg hlimit, if_pos hmem]
      exact ⟨rfl, rfl, (hwait output hwaits).2⟩
  | case6 total bytes output output' he filled hempty take hlimit bytes' output'' hmem ih =>
      have hfilled : filled = output.reader.fillBuf :=
        congrArg Reader.fillBuf (waitIfEmpty_reader output)
      rw [lineLoop.eq_1 limit total bytes output.reader, ← hfilled, if_neg hempty, if_neg hlimit,
        if_neg hmem]
      exact ih (hwait output hwaits).2

/-- The same for the reader with a deadline, while that does not pass. -/
theorem readWireLineBefore_line (limit : ℕ) {output : EngineOutput}
    (hwaits : ∀ n, output.waits n = .ok true) :
    (readWireLineBefore limit output).1 =
        lineResult limit (splitLine newlineByte output.reader.stream).1 ∧
      ∀ b, (readWireLineBefore limit output).1 = .ok b →
        (readWireLineBefore limit output).2.reader.stream =
            (splitLine newlineByte output.reader.stream).2 ∧
          ∀ n, (readWireLineBefore limit output).2.waits n = .ok true := by
  obtain ⟨hresult, hreader, hwaits'⟩ := @lineBeforeLoop_eq limit 0 [] output hwaits
  obtain ⟨hline, hrest⟩ := readWireLineWithLimit_line limit output.reader
  exact ⟨hresult.trans hline, fun b hb =>
    ⟨hreader ▸ hrest b (hresult ▸ hb), hwaits'⟩⟩

/-! ## What the engine returns -/

/-- A line after the text before it. At the end of the stream there is none. -/
def unitsResult (text line : List UInt16) : Option (List UInt16) :=
  if newlineUnit ∈ line then some (withoutReturn (text ++ line.dropLast))
  else if text ++ line = [] then none
  else some (text ++ line)

theorem unitsResult_nil {line : List UInt16} (hline : line ≠ []) :
    unitsResult [] line = some (payload line) := by
  unfold unitsResult payload
  split
  · rfl
  · rw [if_neg (by simpa using hline)]
    rfl

theorem unitsResult_append {text units line : List UInt16} (h : newlineUnit ∉ units) :
    unitsResult text (units ++ line) = unitsResult (text ++ units) line := by
  unfold unitsResult
  by_cases hmem : newlineUnit ∈ line
  · have hne : line ≠ [] := List.ne_nil_of_mem hmem
    simp [hmem, List.dropLast_append_of_ne_nil hne]
  · simp [hmem, h]

theorem textLength_append {units line : List UInt16} (h : newlineUnit ∉ units) :
    textLength (units ++ line) = units.length + textLength line := by
  unfold textLength
  rw [List.takeWhile_append_of_pos, List.length_append]
  intro a ha
  exact decide_eq_true fun heq => h (heq ▸ ha)

theorem take_textLength (units : List UInt16) :
    units.take (textLength units) = units.takeWhile (· ≠ newlineUnit) :=
  (List.prefix_iff_eq_take.1 (List.takeWhile_prefix _)).symm

/-- The end of the line is among the units read ahead. -/
theorem splitLine_of_mem_units {units : List UInt16} (h : newlineUnit ∈ units)
    (rest : List UInt16) : splitLine newlineUnit (units ++ rest) =
      (units.take (textLength units) ++ [newlineUnit], units.drop (textLength units + 1) ++ rest) := by
  rw [splitLine_append_of_mem h, splitLine_of_takeWhile h, take_textLength]
  rfl

theorem newlineUnit_notMem_take (units : List UInt16) :
    newlineUnit ∉ units.take (textLength units) := by
  rw [take_textLength]
  intro h
  simpa using List.mem_takeWhile_imp h

/-- The text of the units read ahead is text of the line. -/
theorem textLength_le (units rest : List UInt16) : textLength units ≤
    textLength (splitLine newlineUnit (units ++ rest)).1 := by
  by_cases h : newlineUnit ∈ units
  · rw [splitLine_of_mem_units h, textLength_append (newlineUnit_notMem_take units),
      List.length_take]
    have := length_takeWhile_lt_iff.2 h
    unfold textLength
    omega
  · rw [splitLine_append_of_notMem h, textLength_append h, textLength, takeWhile_of_notMem h]
    exact Nat.le_add_right _ _

/-- One line is read, if it fits the limit: the text so far with the rest of it. -/
theorem readLineLoop_spec {limit seen : ℕ} {sb : Option (List UInt16)} {reader : Reader UInt16}
    (hseen : seen = (sb.getD []).length)
    (hlimit : seen + textLength (splitLine newlineUnit reader.stream).1 ≤ limit) :
    (readLineLoop limit sb seen reader).1 =
        .ok (unitsResult (sb.getD []) (splitLine newlineUnit reader.stream).1) ∧
      (readLineLoop limit sb seen reader).2.stream = (splitLine newlineUnit reader.stream).2 := by
  fun_induction readLineLoop limit sb seen reader with
  | case1 sb seen reader ahead hempty =>
      have hnil := stream_eq_nil_of_unitsAhead hempty
      rw [stream_unitsAhead, hnil]
      simp [unitsResult, hseen]
  | case2 sb seen reader ahead hne length hlong =>
      rw [← stream_unitsAhead limit seen reader] at hlimit
      have hle : length ≤ _ := textLength_le ahead.buffer ahead.reads.flatten
      exact absurd (Nat.le_trans (Nat.add_le_add_left hle seen) hlimit) (Nat.not_le.2 hlong)
  | case3 sb seen reader ahead hne length hlong text hlt =>
      have hmem : newlineUnit ∈ ahead.buffer := length_takeWhile_lt_iff.1 hlt
      rw [← stream_unitsAhead limit seen reader, Reader.stream, splitLine_of_mem_units hmem]
      refine ⟨?_, rfl⟩
      simp [unitsResult, text, length, ahead]
  | case4 sb seen reader ahead hne length hlong text hlt ih =>
      have hmem : newlineUnit ∉ ahead.buffer := fun h => hlt (length_takeWhile_lt_iff.2 h)
      have hlength : length = ahead.buffer.length := by
        rw [show length = (ahead.buffer.takeWhile (· ≠ newlineUnit)).length from rfl,
          takeWhile_of_notMem hmem]
      have htext : text = sb.getD [] ++ ahead.buffer := by
        simp [text, hlength]
      have hstream : (ahead.consume length).stream = ahead.reads.flatten := by
        simp [Reader.stream, Reader.consume, hlength]
      rw [← stream_unitsAhead limit seen reader, Reader.stream,
        splitLine_append_of_notMem hmem] at hlimit ⊢
      rw [textLength_append hmem] at hlimit
      rw [unitsResult_append hmem]
      rw [hstream] at ih
      rw [← htext]
      apply ih
      · rw [Option.getD_some, htext, List.length_append, hseen, hlength]
      · rw [hlength, Nat.add_assoc]
        exact hlimit

/-- One call of the engine takes one line. -/
theorem readLine_line {limit : ℕ} {reader : Reader UInt16}
    (hlimit : textLength (splitLine newlineUnit reader.stream).1 ≤ limit) :
    (readLine limit reader).1 =
        .ok (unitsResult [] (splitLine newlineUnit reader.stream).1) ∧
      (readLine limit reader).2.stream = (splitLine newlineUnit reader.stream).2 :=
  @readLineLoop_spec limit 0 none reader rfl (by rw [Nat.zero_add]; exact hlimit)

/-! ## Whole streams -/

theorem wireLine_nil : wireLine 0 [] = .ok (0, "") := rfl

/-- The lines that repeated calls return do not depend on how the stream is cut into reads, on
whether there is a deadline, and on the side that reads. -/
theorem repeated_readLine (limit n : ℕ) :
    (∀ reader, repeated (readWireLineWithLimit limit) n reader =
      takenLines (lineResult limit) (0, "") n (lines newlineByte reader.stream)) ∧
    (∀ output, (∀ k, output.waits k = .ok true) → repeated (readWireLineBefore limit) n output =
      takenLines (lineResult limit) (0, "") n (lines newlineByte output.reader.stream)) ∧
    ∀ reader, (∀ line ∈ lines newlineUnit reader.stream, textLength line ≤ limit) →
      repeated (readLine limit) n reader =
        takenLines (fun line => .ok (some (payload line))) none n
          (lines newlineUnit reader.stream) := by
  refine ⟨fun reader => ?_, fun output hwaits => ?_, fun reader hlines => ?_⟩
  · apply @repeated_eq_takenLines _ _ newlineByte _ _ _ _ Reader.stream _ _
      (fun _ : Reader UInt8 => True)
    · intro reader _ hnil
      obtain ⟨hresult, hrest⟩ := readWireLineWithLimit_line limit reader
      rw [hnil] at hresult hrest
      exact ⟨hresult, hrest _ hresult, trivial⟩
    · intro reader _ _
      obtain ⟨hresult, hrest⟩ := readWireLineWithLimit_line limit reader
      exact ⟨hresult, fun b hb => ⟨hrest b hb, trivial⟩⟩
    · trivial
  · apply @repeated_eq_takenLines _ _ newlineByte _ _ _ _
      (fun output : EngineOutput => output.reader.stream) _ _
      (fun output : EngineOutput => ∀ k, output.waits k = .ok true)
    · intro output hwaits hnil
      obtain ⟨hresult, hrest⟩ := readWireLineBefore_line limit hwaits
      rw [hnil] at hresult hrest
      exact ⟨hresult, hrest _ hresult⟩
    · intro output hwaits _
      exact readWireLineBefore_line limit hwaits
    · exact hwaits
  · apply @repeated_eq_takenLines _ _ newlineUnit _ _ _ _ Reader.stream _ _
      (fun reader : Reader UInt16 => ∀ line ∈ lines newlineUnit reader.stream, textLength line ≤ limit)
    · intro reader _ hnil
      have hlimit : textLength (splitLine newlineUnit reader.stream).1 ≤ limit := by
        rw [hnil]
        exact Nat.zero_le _
      obtain ⟨hresult, hrest⟩ := readLine_line hlimit
      rw [hnil] at hresult hrest
      refine ⟨hresult, hrest, ?_⟩
      rw [hrest]
      exact fun line hline => absurd hline List.not_mem_nil
    · intro reader hlines hne
      rw [lines_of_ne_nil hne] at hlines
      obtain ⟨hresult, hrest⟩ := readLine_line (hlines _ List.mem_cons_self)
      rw [unitsResult_nil (splitLine_ne_nil hne)] at hresult
      refine ⟨hresult, fun b _ => ⟨hrest, ?_⟩⟩
      rw [hrest]
      exact fun line hline => hlines line (List.mem_cons_of_mem _ hline)
    · exact hlines

/-- `a`, CR, LF and `b`, cut within the CRLF -/
theorem repeated_readLine_crlf :
    repeated (readWireLineWithLimit 3) 3 ⟨[97, 13], [[10, 98]], by decide⟩ =
      takenLines (lineResult 3) (0, "") 3 [[97, 13, 10], [98]] ∧
    repeated (readWireLineBefore 3) 3 ⟨⟨[97, 13], [[10, 98]], by decide⟩, fun _ => .ok true⟩ =
      takenLines (lineResult 3) (0, "") 3 [[97, 13, 10], [98]] ∧
    repeated (readLine 2) 3 ⟨[97, 13], [[10, 98]], by decide⟩ =
      [.ok (some [97]), .ok (some [98]), .ok none] :=
  ⟨(repeated_readLine 3 3).1 _, (repeated_readLine 3 3).2.1 _ fun _ => rfl,
    (repeated_readLine 2 3).2.2 _ (by decide)⟩

end ScalaRs.WireLines
