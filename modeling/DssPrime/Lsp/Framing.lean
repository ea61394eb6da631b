import DssPrime.Archive.ArRoundTrip

/-!
# Message framing

The model of the framing of `lsp/json_rpc.cpp` and of the stream of `lsp/transport.cpp`.  A frame is
a header that states the length of the body, a separator and the body.  The reader scans what it has
read so far from the start, and asks the source for what the frame still owes, or for one byte as
long as the separator has not come.  The sum of the offset of the body and the stated length is a
64-bit one.
-/

namespace DssPrime

namespace Framing

open Ar (decimal decimalValue allDigits isDigit)

def cr : UInt8 := 0x0D

def lf : UInt8 := 0x0A

def colon : UInt8 := 0x3A

/-- `Content-Length`. -/
def lengthName : List UInt8 :=
  [0x43, 0x6F, 0x6E, 0x74, 0x65, 0x6E, 0x74, 0x2D, 0x4C, 0x65, 0x6E, 0x67, 0x74, 0x68]

def kMaxFrameHeaderBytes : ℕ := 8192

def kMaxReadStepBytes : ℕ := 1024 * 1024

def header (body : List UInt8) : List UInt8 :=
  lengthName ++ colon :: 0x20 :: decimal body.length

def frameMessage (body : List UInt8) : List UInt8 := header body ++ [cr, lf, cr, lf] ++ body

/-- Where a pattern that is not empty first begins. -/
def find (pattern : List UInt8) : List UInt8 → Option ℕ
  | [] => none
  | c :: cs => if pattern <+: c :: cs then some 0 else (find pattern cs).map (· + 1)

/-- The end of the header and the length of the separator. -/
def separator (input : List UInt8) : Option (ℕ × ℕ) :=
  match find [cr, lf, cr, lf] input with
  | some headerEnd => some (headerEnd, 4)
  | none => (find [lf, lf] input).map fun headerEnd => (headerEnd, 2)

def isText (c : UInt8) : Bool := c != cr && c != lf

/-- The stated length after one more line; `none` if the line states none that can be read. -/
def scanLine (line : List UInt8) (contentLength : Option ℕ) : Option (Option ℕ) :=
  if colon ∈ line ∧ line.takeWhile (· != colon) = lengthName then
    let value := (line.dropWhile (· != colon)).tail.dropWhile fun c => c == 0x20 || c == 0x09
    if allDigits value then (decimalValue value).map some else none
  else some contentLength

def scanLines (header : List UInt8) (contentLength : Option ℕ) : Option (Option ℕ) :=
  match header with
  | [] => some contentLength
  | c :: cs =>
    let rest := (c :: cs).dropWhile isText
    match scanLine ((c :: cs).takeWhile isText) contentLength with
    | none => none
    | some stated => scanLines (rest.drop (if [cr, lf] <+: rest then 2 else 1)) stated
termination_by header.length
decreasing_by
  have := (List.dropWhile_suffix isText (l := c :: cs)).length_le
  simp only [List.length_cons, List.length_drop] at this ⊢
  split_ifs <;> omega

/-- What a scan finds. -/
inductive FrameScan where
  | complete (body : List UInt8) (consumed : ℕ)
  | incomplete (bytesNeeded : ℕ)
  | malformedHeader

/-- Looks for a frame at the start of the input.  A stated end beyond 64 bits wraps around; the body
is then what the input has of it here, while the source fails to allocate one of the stated
length. -/
def scanFramedMessage (input : List UInt8) : FrameScan :=
  match separator input with
  | none => if kMaxFrameHeaderBytes < input.length then .malformedHeader else .incomplete 0
  | some (headerEnd, sepLen) =>
    if kMaxFrameHeaderBytes < headerEnd then .malformedHeader
    else match scanLines (input.take headerEnd) none with
      | some (some contentLength) =>
        let bodyStart := headerEnd + sepLen
        let frameEnd := (bodyStart + contentLength) % 2 ^ 64
        if input.length < frameEnd then .incomplete (frameEnd - input.length)
        else .complete ((input.drop bodyStart).take contentLength) frameEnd
      | _ => .malformedHeader

inductive TransportError where
  | eof
  | framingError
  | ioError

/-- A transport with the bytes its source will still deliver, whether the source then ends or fails,
and the bytes its sink has taken. -/
structure StdioTransport where
  readBuffer : List UInt8
  source : List UInt8
  atEnd : Bool
  sink : List UInt8
  sinkFails : Bool
  closed : Bool

/-- How many bytes are asked for next. -/
def readStep (bytesNeeded : ℕ) : ℕ :=
  min (if bytesNeeded = 0 then 1 else bytesNeeded) kMaxReadStepBytes

theorem readStep_pos (n : ℕ) : 0 < readStep n := by
  rw [readStep, kMaxReadStepBytes]
  split_ifs <;> omega

namespace StdioTransport

/-- One read from the source. -/
def take (t : StdioTransport) (want : ℕ) : StdioTransport :=
  { t with readBuffer := t.readBuffer ++ t.source.take want, source := t.source.drop want }

def readMessage (t : StdioTransport) : Except TransportError (List UInt8) × StdioTransport :=
  if t.closed then (.error .eof, t)
  else match scanFramedMessage t.readBuffer with
    | .complete body consumed => (.ok body, { t with readBuffer := t.readBuffer.drop consumed })
    | .malformedHeader => (.error .framingError, t)
    | .incomplete bytesNeeded =>
      let want := readStep bytesNeeded
      if t.source.length < want then (.error (if t.atEnd then .eof else .ioError), t.take want)
      else readMessage (t.take want)
termination_by t.source.length
decreasing_by
  have := readStep_pos bytesNeeded
  rw [take, List.length_drop]
  omega

def writeMessage (t : StdioTransport) (body : List UInt8) :
    Except TransportError Unit × StdioTransport :=
  if t.closed then (.error .ioError, t)
  else if t.sinkFails then (.error .ioError, t)
  else (.ok (), { t with sink := t.sink ++ frameMessage body })

def readMessages : ℕ → StdioTransport → List (Except TransportError (List UInt8)) × StdioTransport
  | 0, t => ([], t)
  | n + 1, t =>
    let rest := readMessages n t.readMessage.2
    (t.readMessage.1 :: rest.1, rest.2)

def writeMessages (t : StdioTransport) (bodies : List (List UInt8)) : StdioTransport :=
  bodies.foldl (fun t body => (t.writeMessage body).2) t

/-- What was read and not returned, and what is still to come. -/
def stream (t : StdioTransport) : List UInt8 := t.readBuffer ++ t.source

end StdioTransport

theorem find_eq_some {pattern s : List UInt8} {n : ℕ} (h : find pattern s = some n) :
    pattern <+: s.drop n := by
  induction s generalizing n with
  | nil => simp [find] at h
  | cons c cs ih =>
    rw [find] at h
    split_ifs at h with hp
    · simpa [← Option.some.inj h] using hp
    · obtain ⟨m, hm, rfl⟩ := Option.map_eq_some_iff.mp h
      exact ih hm

theorem find_append {p : UInt8} {ps pre : List UInt8} (hpre : ∀ c ∈ pre, c ≠ p) (s : List UInt8) :
    find (p :: ps) (pre ++ s) = (find (p :: ps) s).map (· + pre.length) := by
  induction pre with
  | nil => simp
  | cons c cs ih =>
    have hc : ¬p :: ps <+: c :: (cs ++ s) := fun h =>
      hpre c List.mem_cons_self (List.cons_prefix_cons.mp h).1.symm
    rw [List.cons_append, find, if_neg hc, ih fun d hd => hpre d (List.mem_cons_of_mem _ hd)]
    cases find (p :: ps) s <;> simp [Nat.add_assoc]

section Frame

variable {body : List UInt8}

theorem isDigit_ne {c d : UInt8} (hc : isDigit c = true) (hd : isDigit d = false) : c ≠ d := by
  rintro rfl
  simp [hc] at hd

theorem header_isText : ∀ c ∈ header body, isText c = true := by
  intro c hc
  rw [header, List.mem_append, List.mem_cons, List.mem_cons] at hc
  rcases hc with hc | rfl | rfl | hc
  · have hall : lengthName.all isText = true := rfl
    exact List.all_eq_true.mp hall c hc
  · rfl
  · rfl
  · have hd := Ar.isDigit_of_mem_decimal hc
    simp [isText, isDigit_ne hd (d := cr) rfl, isDigit_ne hd (d := lf) rfl]

theorem header_ne {c : UInt8} (hc : c ∈ header body) : c ≠ cr ∧ c ≠ lf := by
  simpa [isText] using header_isText c hc

theorem header_length (hlen : body.length < 2 ^ 63) : (header body).length ≤ 35 := by
  have := Ar.length_decimal_le (n := body.length) (k := 19) (by decide) (by omega)
  have hl : lengthName.length = 14 := rfl
  simp only [header, List.length_append, List.length_cons]
  omega

theorem scanLine_header (hlen : body.length < 2 ^ 64) (stated : Option ℕ) :
    scanLine (header body) stated = some (some body.length) := by
  have hname : (header body).takeWhile (· != colon) = lengthName := rfl
  have hrest : ((header body).dropWhile (· != colon)).tail = 0x20 :: decimal body.length := rfl
  have hvalue : (0x20 :: decimal body.length).dropWhile (fun c => c == 0x20 || c == 0x09) =
      decimal body.length := by
    obtain ⟨d, ds, hds⟩ := List.exists_cons_of_ne_nil (Ar.decimal_ne_nil body.length)
    have hd : isDigit d = true := Ar.isDigit_of_mem_decimal (n := body.length) (by simp [hds])
    simp [hds, isDigit_ne hd (d := 0x20) rfl, isDigit_ne hd (d := 0x09) rfl]
  rw [scanLine, if_pos ⟨by simp [header], hname⟩]
  simp only [hrest, hvalue]
  rw [if_pos (Ar.allDigits_decimal _), Ar.decimalValue_decimal hlen]
  rfl

theorem scanLines_header (hlen : body.length < 2 ^ 64) :
    scanLines (header body) none = some (some body.length) := by
  have htext : ∀ c ∈ header body, isText c = true := header_isText
  have htake := List.takeWhile_eq_self_iff.mpr htext
  have hdrop := List.dropWhile_eq_nil_iff.mpr htext
  obtain ⟨c, cs, hcs⟩ : ∃ c cs, header body = c :: cs := ⟨_, _, rfl⟩
  rw [hcs] at htake hdrop ⊢
  rw [scanLines, htake, hdrop, ← hcs]
  simp only [scanLine_header hlen]
  simp [scanLines]

theorem frameMessage_length :
    (frameMessage body).length = (header body).length + 4 + body.length := by
  simp only [frameMessage, List.length_append, List.length_cons, List.length_nil]

theorem find_short {p : UInt8} {ps pre : List UInt8} {n : ℕ} (hn : n < 4)
    (hpre : ∀ c ∈ pre, c ≠ p) (hp : p :: ps = [cr, lf, cr, lf] ∨ p :: ps = [lf, lf]) :
    find (p :: ps) (pre ++ [cr, lf, cr, lf].take n) = none := by
  rw [find_append hpre, Option.map_eq_none_iff]
  rcases hp with hp | hp <;> rw [hp] <;> interval_cases n <;> rfl

theorem scan_short (hlen : body.length < 2 ^ 63) {n : ℕ} (hn : n < (header body).length + 4) :
    scanFramedMessage ((frameMessage body).take n) = .incomplete 0 := by
  have htake : (frameMessage body).take n =
      (header body).take n ++ [cr, lf, cr, lf].take (n - (header body).length) := by
    rw [frameMessage, List.take_append_of_le_length (by simp; omega), List.take_append]
  have hne : ∀ c ∈ (header body).take n, c ≠ cr ∧ c ≠ lf := fun c hc =>
    header_ne (List.mem_of_mem_take hc)
  have hk : n - (header body).length < 4 := by omega
  have hh := header_length hlen
  have hsep : separator ((frameMessage body).take n) = none := by
    rw [separator, htake, find_short hk (fun c hc => (hne c hc).1) (.inl rfl),
      find_short hk (fun c hc => (hne c hc).2) (.inr rfl)]
    rfl
  rw [scanFramedMessage, hsep]
  simp only [List.length_take, kMaxFrameHeaderBytes]
  rw [if_neg (by omega)]

theorem scan_long (hlen : body.length < 2 ^ 63) (got : List UInt8) :
    scanFramedMessage (header body ++ [cr, lf, cr, lf] ++ got) =
      if got.length < body.length then .incomplete (body.length - got.length)
      else .complete (got.take body.length) (frameMessage body).length := by
  have hh := header_length hlen
  have hsep : separator (header body ++ [cr, lf, cr, lf] ++ got) =
      some ((header body).length, 4) := by
    rw [separator, List.append_assoc, find_append fun c hc => (header_ne hc).1]
    simp [find]
  have htake : (header body ++ [cr, lf, cr, lf] ++ got).take (header body).length =
      header body := by simp
  have hdrop : (header body ++ [cr, lf, cr, lf] ++ got).drop ((header body).length + 4) =
      got := List.drop_left' (by simp)
  have hmod : ((header body).length + 4 + body.length) % 2 ^ 64 =
      (frameMessage body).length := by
    rw [frameMessage_length, Nat.mod_eq_of_lt (by omega)]
  rw [scanFramedMessage, hsep]
  simp only [htake, scanLines_header (show body.length < 2 ^ 64 by omega), hdrop, hmod]
  have hlength : (header body ++ [cr, lf, cr, lf] ++ got).length =
      (header body).length + 4 + got.length := by
    simp only [List.length_append, List.length_cons, List.length_nil]
  rw [if_neg (by rw [kMaxFrameHeaderBytes]; omega), hlength, frameMessage_length]
  split_ifs with h₁ h₂ h₂
  · congr 1
    omega
  · omega
  · omega
  · rfl

theorem scan_take (hlen : body.length < 2 ^ 63) {n : ℕ} (hn : n < (frameMessage body).length) :
    ∃ need, scanFramedMessage ((frameMessage body).take n) = .incomplete need ∧
      n + max need 1 ≤ (frameMessage body).length := by
  rw [frameMessage_length] at hn ⊢
  by_cases hs : n < (header body).length + 4
  · exact ⟨0, scan_short hlen hs, by omega⟩
  · have htake : (frameMessage body).take n =
        header body ++ [cr, lf, cr, lf] ++ body.take (n - ((header body).length + 4)) := by
      rw [frameMessage, List.take_append, List.take_of_length_le (by simp; omega)]
      simp
    have hgot : (body.take (n - ((header body).length + 4))).length =
        n - ((header body).length + 4) := by
      rw [List.length_take]
      omega
    refine ⟨(frameMessage body).length - n, ?_, ?_⟩ <;> rw [frameMessage_length]
    · rw [htake, scan_long hlen, if_pos (by omega), hgot]
      congr 1
      omega
    · omega

theorem scan_frame (hlen : body.length < 2 ^ 63) :
    scanFramedMessage (frameMessage body) = .complete body (frameMessage body).length := by
  rw [frameMessage, scan_long hlen, if_neg (lt_irrefl _), List.take_length]
  rfl

end Frame

namespace StdioTransport

theorem readMessage_complete {t : StdioTransport} {body : List UInt8} {n : ℕ}
    (ho : t.closed = false) (hs : scanFramedMessage t.readBuffer = .complete body n) :
    t.readMessage = (.ok body, { t with readBuffer := t.readBuffer.drop n }) := by
  rw [readMessage, if_neg (by simp [ho])]
  simp only [hs]

theorem readMessage_incomplete {t : StdioTransport} {n : ℕ} (ho : t.closed = false)
    (hs : scanFramedMessage t.readBuffer = .incomplete n) :
    t.readMessage = if t.source.length < readStep n
      then (.error (if t.atEnd then .eof else .ioError), t.take (readStep n))
      else (t.take (readStep n)).readMessage := by
  rw [readMessage, if_neg (by simp [ho])]
  simp only [hs]

/-- A call that finds the first part of a frame in the buffer and the rest in the source returns the
body, and leaves what comes after the frame in the source. -/
theorem readMessage_frame {body : List UInt8} (hlen : body.length < 2 ^ 63) (rest : List UInt8)
    (t : StdioTransport) (ho : t.closed = false) {n : ℕ} (hn : n ≤ (frameMessage body).length)
    (hb : t.readBuffer = (frameMessage body).take n)
    (hs : t.source = (frameMessage body).drop n ++ rest) :
    t.readMessage = (.ok body, { t with readBuffer := [], source := rest }) := by
  induction hk : (frameMessage body).length - n using Nat.strong_induction_on generalizing n t with
  | _ k ih =>
    rcases hn.lt_or_eq with hlt | rfl
    · obtain ⟨need, hscan, hneed⟩ := scan_take hlen hlt
      have hstep : 0 < readStep need := readStep_pos need
      have hle : readStep need ≤ max need 1 := by
        rw [readStep]
        split_ifs <;> omega
      have hm : n + readStep need ≤ (frameMessage body).length := by omega
      have hlength : ((frameMessage body).drop n).length = (frameMessage body).length - n :=
        List.length_drop
      rw [readMessage_incomplete ho (by rw [hb, hscan]), if_neg (by simp [hs]; omega)]
      rw [ih _ (by omega) (n := n + readStep need) (t.take (readStep need)) ho hm ?_ ?_ rfl]
      · rfl
      · rw [take, hb, hs, List.take_append_of_le_length (by omega), ← List.take_add]
      · rw [take, hs, List.drop_append_of_le_length (by omega), List.drop_drop]
    · rw [List.take_length] at hb
      rw [List.drop_length, List.nil_append] at hs
      rw [readMessage_complete ho (by rw [hb, scan_frame hlen]), hb, List.drop_length, ← hs]

theorem sink_writeMessages (t : StdioTransport) (bodies : List (List UInt8))
    (ho : t.closed = false) (hw : t.sinkFails = false) :
    (t.writeMessages bodies).sink = t.sink ++ bodies.flatMap frameMessage := by
  induction bodies generalizing t with
  | nil => simp [writeMessages]
  | cons b bs ih =>
    have hstep : t.writeMessages (b :: bs) =
        writeMessages { t with sink := t.sink ++ frameMessage b } bs := by
      simp [writeMessages, writeMessage, ho, hw]
    rw [hstep, ih { t with sink := t.sink ++ frameMessage b } ho hw]
    simp

theorem readMessages_frames (bodies : List (List UInt8)) (hlen : ∀ b ∈ bodies, b.length < 2 ^ 63)
    (rest : List UInt8) (t : StdioTransport) (ho : t.closed = false) (hb : t.readBuffer = [])
    (hs : t.source = bodies.flatMap frameMessage ++ rest) :
    t.readMessages bodies.length = (bodies.map .ok, { t with source := rest }) := by
  induction bodies generalizing t with
  | nil =>
    have hs : t.source = rest := by simpa using hs
    subst hs
    rfl
  | cons b bs ih =>
    have hread :=
      readMessage_frame (hlen b List.mem_cons_self) (bs.flatMap frameMessage ++ rest) t ho
      (n := 0) (Nat.zero_le _) (by simpa using hb) (by simpa using hs)
    have hrest := ih (fun c hc => hlen c (List.mem_cons_of_mem _ hc))
      { t with readBuffer := [], source := bs.flatMap frameMessage ++ rest } ho rfl rfl
    rw [List.length_cons, readMessages, hread]
    simp only [hrest, List.map_cons, hb]

/-- **What one end writes the other reads.**  The bodies that a transport has written, whatever
their bytes, are returned one by one to a reader with an empty buffer; the reader asks for no byte
behind the last frame, so that what follows is still in its source. -/
theorem readMessages_writeMessages (server client : StdioTransport) (bodies : List (List UInt8))
    (hlen : ∀ b ∈ bodies, b.length < 2 ^ 63) (rest : List UInt8) (hserver : server.closed = false)
    (hworks : server.sinkFails = false) (hclient : client.closed = false)
    (hbuffer : client.readBuffer = []) (hsink : server.sink = [])
    (hsource : client.source = (server.writeMessages bodies).sink ++ rest) :
    client.readMessages bodies.length = (bodies.map .ok, { client with source := rest }) := by
  refine readMessages_frames bodies hlen rest client hclient hbuffer ?_
  rw [hsource, sink_writeMessages server bodies hserver hworks, hsink, List.nil_append]

/-- A body that looks like the end of a header, and an empty one. -/
theorem readMessages_writeMessages_separators :
    readMessages 2 ⟨[], frameMessage [lf, lf, cr, lf, cr, lf] ++ frameMessage [] ++ [cr], true, [],
      false, false⟩ = ([.ok [lf, lf, cr, lf, cr, lf], .ok []],
        ⟨[], [cr], true, [], false, false⟩) :=
  readMessages_writeMessages ⟨[], [], true, [], false, false⟩ _ [[lf, lf, cr, lf, cr, lf], []]
    (by decide) [cr] rfl rfl rfl rfl rfl rfl

end StdioTransport

section Peer

/-- A stream begins with a frame that has this body, and what comes after the frame, provided that
the end which the header states is a 64-bit number. -/
def Framed (stream body rest : List UInt8) : Prop :=
  ∃ head sep stated, (sep = [cr, lf, cr, lf] ∨ sep = [lf, lf]) ∧ head ++ sep <+: stream ∧
    head.length ≤ kMaxFrameHeaderBytes ∧ scanLines head none = some (some stated) ∧
    (head.length + sep.length + stated < 2 ^ 64 →
      body.length = stated ∧ stream = head ++ sep ++ body ++ rest)

theorem separator_eq_some {input : List UInt8} {e k : ℕ} (h : separator input = some (e, k)) :
    ∃ sep, (sep = [cr, lf, cr, lf] ∨ sep = [lf, lf]) ∧ sep.length = k ∧ sep <+: input.drop e := by
  rw [separator] at h
  cases hf : find [cr, lf, cr, lf] input with
  | some n =>
    obtain ⟨rfl, rfl⟩ : n = e ∧ 4 = k := by simpa [hf] using h
    exact ⟨_, .inl rfl, rfl, find_eq_some hf⟩
  | none =>
    obtain ⟨n, hn, he⟩ : ∃ n, find [lf, lf] input = some n ∧ (n, 2) = (e, k) := by
      simpa [hf] using h
    obtain ⟨rfl, rfl⟩ := Prod.mk.inj he
    exact ⟨_, .inr rfl, rfl, find_eq_some hn⟩

theorem scan_complete {input body : List UInt8} {n : ℕ}
    (h : scanFramedMessage input = .complete body n) (rest : List UInt8) :
    Framed (input ++ rest) body (input.drop n ++ rest) := by
  rw [scanFramedMessage] at h
  cases hs : separator input with
  | none =>
    simp only [hs] at h
    split_ifs at h
  | some p =>
    obtain ⟨e, k⟩ := p
    simp only [hs] at h
    split_ifs at h with hmax
    obtain ⟨sep, hsep, rfl, post, hpost⟩ := separator_eq_some hs
    have hinput : input = input.take e ++ sep ++ post := by
      rw [List.append_assoc, hpost, List.take_append_drop]
    have hlen : (input.take e).length = e := by
      have : sep.length ≠ 0 := by rcases hsep with rfl | rfl <;> simp
      have hd := congrArg List.length hpost
      simp only [List.length_append, List.length_drop] at hd
      rw [List.length_take]
      omega
    cases hl : scanLines (input.take e) none with
    | none => simp [hl] at h
    | some o =>
      cases o with
      | none => simp [hl] at h
      | some stated =>
        simp only [hl] at h
        split_ifs at h with hshort
        injection h with hbody hn
        refine ⟨input.take e, sep, stated, hsep, ⟨post ++ rest, ?_⟩, by omega, hl, fun hfit => ?_⟩
        · rw [← List.append_assoc, ← hinput]
        · rw [hlen] at hfit
          rw [Nat.mod_eq_of_lt hfit] at hshort hn
          have hdrop : input.drop (e + sep.length) = post := by
            rw [← List.drop_drop, ← hpost, List.drop_left]
          have hlength := congrArg List.length hinput
          simp only [List.length_append, hlen] at hlength
          rw [hdrop] at hbody
          refine ⟨by rw [← hbody, List.length_take]; omega, ?_⟩
          rw [← hn, ← List.drop_drop, hdrop, ← hbody, ← List.append_assoc,
            List.append_assoc (_ ++ sep), List.take_append_drop, ← hinput]

namespace StdioTransport

theorem stream_take (t : StdioTransport) (n : ℕ) : (t.take n).stream = t.stream := by
  rw [stream, stream, take, List.append_assoc, List.take_append_drop]

/-- **No byte is lost, doubled or put elsewhere.**  Whatever the peer sends, a call ends; the body
it returns is that of a frame the stream begins with, and what is left is the stream after this
frame; a call that fails has dropped nothing. -/
theorem readMessage_stream (t : StdioTransport) :
    (∀ body t', t.readMessage = (.ok body, t') → Framed t.stream body t'.stream) ∧
      ∀ e t', t.readMessage = (.error e, t') → t'.stream = t.stream := by
  induction hk : t.source.length using Nat.strong_induction_on generalizing t with
  | _ k ih =>
    by_cases ho : t.closed = true
    · rw [readMessage, if_pos ho]
      simp
    · have ho : t.closed = false := by simpa using ho
      cases hs : scanFramedMessage t.readBuffer with
      | complete body n =>
        rw [readMessage_complete ho hs]
        refine ⟨fun b t' h => ?_, by simp⟩
        obtain ⟨rfl, rfl⟩ : body = b ∧ { t with readBuffer := t.readBuffer.drop n } = t' := by
          simpa using h
        exact scan_complete hs t.source
      | malformedHeader =>
        rw [readMessage, ho]
        simp [hs]
      | incomplete n =>
        rw [readMessage_incomplete ho hs, ← stream_take t (readStep n)]
        by_cases hw : t.source.length < readStep n
        · rw [if_pos hw]
          exact ⟨by simp, fun e t' h => by rw [← (Prod.mk.inj h).2]⟩
        · have hpos := readStep_pos n
          rw [if_neg hw]
          refine ih _ ?_ (t.take (readStep n)) rfl
          rw [← hk, take, List.length_drop]
          omega

end StdioTransport

end Peer

section Unterminated

theorem find_take {pattern s : List UInt8} (h : find pattern s = none) (n : ℕ) :
    find pattern (s.take n) = none := by
  induction s generalizing n with
  | nil => simpa using h
  | cons c cs ih =>
    cases n with
    | zero => rfl
    | succ n =>
      rw [find] at h
      split_ifs at h with hp
      have hp' : ¬pattern <+: c :: cs.take n := fun hq =>
        hp (hq.trans (List.take_prefix (n + 1) (c :: cs)))
      rw [List.take_succ_cons, find, if_neg hp', ih (Option.map_eq_none_iff.mp h)]
      rfl

theorem separator_take {s : List UInt8} (h : separator s = none) (n : ℕ) :
    separator (s.take n) = none := by
  have hlong : find [cr, lf, cr, lf] s = none := by
    cases hf : find [cr, lf, cr, lf] s with
    | none => rfl
    | some e => simp [separator, hf] at h
  rw [separator, hlong] at h
  rw [separator, find_take hlong, find_take (Option.map_eq_none_iff.mp h)]
  rfl

/-- **A header that does not end is refused.**  If the first bytes of a stream, one more than a
header may have, hold no separator, and the buffer no more than these, then a call reads them, one
by one, and no other. -/
theorem StdioTransport.readMessage_unterminated (t : StdioTransport) (ho : t.closed = false)
    (hbuffer : t.readBuffer.length ≤ kMaxFrameHeaderBytes + 1)
    (hlong : kMaxFrameHeaderBytes + 1 ≤ t.stream.length)
    (hno : separator (t.stream.take (kMaxFrameHeaderBytes + 1)) = none) :
    t.readMessage = (.error .framingError,
      { t with
        readBuffer := t.stream.take (kMaxFrameHeaderBytes + 1)
        source := t.stream.drop (kMaxFrameHeaderBytes + 1) }) := by
  induction hk : kMaxFrameHeaderBytes + 1 - t.readBuffer.length generalizing t with
  | zero =>
    have hlength : t.readBuffer.length = kMaxFrameHeaderBytes + 1 := by omega
    rw [stream, ← hlength, List.take_left] at hno
    have hscan : scanFramedMessage t.readBuffer = .malformedHeader := by
      rw [scanFramedMessage, hno]
      exact if_pos (by omega)
    rw [readMessage, if_neg (by simp [ho])]
    simp only [hscan, stream, ← hlength, List.take_left, List.drop_left]
  | succ k ih =>
    have hbuf : t.readBuffer = (t.stream.take (kMaxFrameHeaderBytes + 1)).take
        t.readBuffer.length := by
      rw [List.take_take, min_eq_left hbuffer, stream, List.take_left]
    have hscan : scanFramedMessage t.readBuffer = .incomplete 0 := by
      have hsep : separator t.readBuffer = none := hbuf ▸ separator_take hno _
      rw [scanFramedMessage, hsep]
      exact if_neg (by omega)
    have hone : readStep 0 = 1 := rfl
    have hsource : 1 ≤ t.source.length := by
      rw [stream, List.length_append] at hlong
      omega
    have hgrown : (t.take 1).readBuffer.length = t.readBuffer.length + 1 := by
      rw [take, List.length_append, List.length_take, min_eq_left hsource]
    have hnext := ih (t.take 1) ho (by omega) (by rwa [stream_take]) (by rwa [stream_take])
      (by omega)
    rw [readMessage_incomplete ho hscan, hone, if_neg (by omega), hnext, stream_take]
    rfl

theorem separator_replicate (n : ℕ) : separator (List.replicate n colon) = none := by
  have hfind : ∀ (p : UInt8) ps, colon ≠ p → find (p :: ps) (List.replicate n colon) = none := by
    intro p ps hp
    have hne : ∀ c ∈ List.replicate n colon, c ≠ p := fun c hc => by
      rwa [List.eq_of_mem_replicate hc]
    rw [← List.append_nil (List.replicate n colon), find_append hne]
    rfl
  rw [separator, hfind cr _ (by decide), hfind lf _ (by decide)]
  rfl

theorem StdioTransport.readMessage_unterminated_colons :
    (readMessage ⟨[], List.replicate 9000 colon, true, [], false, false⟩).1 =
      .error .framingError := by
  rw [readMessage_unterminated _ rfl (Nat.zero_le _) _ (separator_take (separator_replicate _) _)]
  rw [stream, List.nil_append, List.length_replicate]
  decide

end Unterminated

end Framing

end DssPrime
