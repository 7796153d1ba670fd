import Cse461.Secrets.Session

/-!
# Reading from a connection

`read` of `PacketUtil.java`, which the client and the server have a copy of each. A stream comes
in chunks, each of which is what one call of `in.read(buf)` hands over, and ends with a call that
returns -1 or throws.

* Each chunk is written over the start of the buffer. The bytes are put together in `baos` only,
  which nobody reads.
* The loop stops as soon as no more than `SIZE_HEADER` bytes are missing.

So the buffer is filled as it should be in few cases (`fillsBuffer_iff`). A session, where each
read hands over a packet as a whole, is one of them (`read_of_session`).
-/

namespace Cse461.Secrets.Read

/-- What `in.read` hands over at once, of the `size` bytes that it is asked for. -/
structure Chunk (size : ℕ) where
  bytes : List UInt8
  ne_nil : bytes ≠ []
  length_le : bytes.length ≤ size

/-- What `read` ends with: whether it returns true, the buffer, `baos`, and what is left of the
    stream. -/
structure Outcome (size : ℕ) where
  filled : Bool
  buf : List UInt8
  baos : List UInt8
  rest : List (Chunk size)

variable {n : ℕ}

/-- The bytes of a stream. -/
def bytes (chunks : List (Chunk n)) : List UInt8 := chunks.flatMap Chunk.bytes

/-- `buf.length - SIZE_HEADER`. -/
def limit (buf : List UInt8) : Int32 := Int32.ofNat buf.length - Int32.ofNat sizeHeader

/-- The loop of `read`, and what follows it. -/
def readLoop (throws : Bool) (total : Int32) (buf baos : List UInt8) :
    List (Chunk n) → Outcome n
  | [] =>
    if total < limit buf ∧ throws then
      ⟨false, buf, baos, []⟩
    else
      ⟨total = Int32.ofNat buf.length, buf, baos, []⟩
  | chunk :: rest =>
    if total < limit buf then
      readLoop throws (total + Int32.ofNat chunk.bytes.length) (StepB.receiveInto buf chunk.bytes)
        (baos ++ chunk.bytes) rest
    else
      ⟨total = Int32.ofNat buf.length, buf, baos, chunk :: rest⟩

/-- `read` from a stream, given whether it ends with an exception. -/
def read (throws : Bool) (buf : List UInt8) (chunks : List (Chunk n)) : Outcome n :=
  readLoop throws 0 buf [] chunks

/-- `read` returns true if and only if as many bytes as the buffer has arrive, which are then in
    the buffer, and it takes no others off the stream. -/
def FillsBuffer (throws : Bool) (buf : List UInt8) (chunks : List (Chunk buf.length)) : Prop :=
  ((read throws buf chunks).filled = true ↔ buf.length ≤ (bytes chunks).length) ∧
    ((read throws buf chunks).filled = true →
      (read throws buf chunks).buf = (bytes chunks).take buf.length ∧
        bytes (read throws buf chunks).rest = (bytes chunks).drop buf.length)

/-- Byte `j` of the last chunk that has one, or else of the buffer. -/
def lastByte (buf : List UInt8) (chunks : List (Chunk n)) (j : ℕ) : Option UInt8 :=
  match chunks.reverse.find? fun c => j < c.bytes.length with
  | some c => c.bytes[j]?
  | none => buf[j]?

/-- A chunk ends where the packet does, and is longer than a header, and the last chunk to have
    a byte of some number has the one of the packet. -/
def Overlays (buf : List UInt8) (chunks : List (Chunk n)) : Prop :=
  ∃ init last rest, chunks = init ++ last :: rest ∧
    (bytes (init ++ [last])).length = buf.length ∧ sizeHeader < last.bytes.length ∧
      ∀ j < buf.length, lastByte buf (init ++ [last]) j = (bytes (init ++ [last]))[j]?

section

variable {throws : Bool} {total : Int32} {buf baos : List UInt8} {chunks pre : List (Chunk n)}

/-! ## Bytes -/

@[simp] theorem bytes_nil : bytes ([] : List (Chunk n)) = [] := rfl

@[simp] theorem bytes_cons (c : Chunk n) (l : List (Chunk n)) :
    bytes (c :: l) = c.bytes ++ bytes l := rfl

@[simp] theorem bytes_append (l r : List (Chunk n)) : bytes (l ++ r) = bytes l ++ bytes r :=
  List.flatMap_append

theorem limit_eq (hlow : sizeHeader ≤ buf.length) :
    limit buf = Int32.ofNat (buf.length - sizeHeader) :=
  (Int32.ofNat_sub _ _ hlow).symm

/-- The loop goes on while more than a header is missing. -/
theorem ofNat_lt_limit {k : ℕ} (hlow : sizeHeader ≤ buf.length) (hhigh : buf.length < 2 ^ 31)
    (hk : k < 2 ^ 31) : Int32.ofNat k < limit buf ↔ k + sizeHeader < buf.length := by
  rw [limit_eq hlow, Int32.lt_iff_toInt_lt, Int32.toInt_ofNat_of_lt hk,
    Int32.toInt_ofNat_of_lt (by omega)]
  omega

/-- The chunks are written over each other. -/
def written (buf : List UInt8) (chunks : List (Chunk n)) : List UInt8 :=
  chunks.foldl (fun b c => StepB.receiveInto b c.bytes) buf

theorem length_written (hn : buf.length = n) (chunks : List (Chunk n)) :
    (written buf chunks).length = n := by
  induction chunks generalizing buf with
  | nil => exact hn
  | cons c l ih =>
    have hlength := StepB.length_receiveInto (c.length_le.trans hn.ge)
    exact ih (hlength.trans hn)

/-- What is written last over a byte stays. -/
theorem getElem?_written (hn : buf.length = n) (chunks : List (Chunk n)) (j : ℕ) :
    (written buf chunks)[j]? = lastByte buf chunks j := by
  induction chunks using List.reverseRecOn with
  | nil => rfl
  | append_singleton l c ih =>
    have hlength := length_written hn l
    have hstep : written buf (l ++ [c]) = c.bytes ++ (written buf l).drop c.bytes.length := by
      rw [written, List.foldl_append, List.foldl_cons, List.foldl_nil, ← written,
        StepB.receiveInto, List.take_of_length_le (c.length_le.trans hlength.ge)]
    rw [hstep, lastByte, List.reverse_append, List.reverse_singleton, List.singleton_append,
      List.find?_cons]
    by_cases hj : j < c.bytes.length
    · rw [List.getElem?_append_left hj, decide_eq_true hj]
    · have hle : c.bytes.length ≤ j := Nat.le_of_not_lt hj
      rw [List.getElem?_append_right hle, decide_eq_false hj, List.getElem?_drop,
        Nat.add_sub_cancel' hle, ih, lastByte]

/-! ## The loop -/

theorem not_full_of_lt_limit (hlow : sizeHeader ≤ buf.length) (hhigh : buf.length < 2 ^ 31)
    (h : total < limit buf) : total ≠ Int32.ofNat buf.length := by
  rintro rfl
  have := (ofNat_lt_limit hlow hhigh hhigh).1 h
  omega

/-- The loop reads the chunks `pre`, and stops when the limit is reached or nothing is left. -/
structure Reads (total : Int32) (buf baos : List UInt8) (pre rest : List (Chunk n))
    (o : Outcome n) : Prop where
  filled_iff : o.filled = true ↔ total + Int32.ofNat (bytes pre).length = Int32.ofNat buf.length
  buf_eq : o.buf = written buf pre
  baos_eq : o.baos = baos ++ bytes pre
  rest_eq : o.rest = rest
  goes : ∀ init last, pre = init ++ last → last ≠ [] →
    total + Int32.ofNat (bytes init).length < limit buf
  stops : rest = [] ∨ ¬total + Int32.ofNat (bytes pre).length < limit buf

theorem add_length_nil (total : Int32) :
    total + Int32.ofNat (bytes ([] : List (Chunk n))).length = total := by
  simp

theorem add_length_cons (total : Int32) (c : Chunk n) (l : List (Chunk n)) :
    total + Int32.ofNat (bytes (c :: l)).length =
      total + Int32.ofNat c.bytes.length + Int32.ofNat (bytes l).length := by
  rw [bytes_cons, List.length_append, Int32.ofNat_add, Int32.add_assoc]

/-- The loop stops at once. -/
theorem Reads.nil {filled : Bool} {rest : List (Chunk n)}
    (hfilled : filled = true ↔ total = Int32.ofNat buf.length)
    (hstops : rest = [] ∨ ¬total < limit buf) :
    Reads total buf baos [] rest ⟨filled, buf, baos, rest⟩ where
  filled_iff := by rw [add_length_nil, hfilled]
  buf_eq := rfl
  baos_eq := (List.append_nil baos).symm
  rest_eq := rfl
  goes init last hnil hlast := absurd (List.append_eq_nil_iff.1 hnil.symm).2 hlast
  stops := by rwa [add_length_nil]

theorem exists_reads (hn : buf.length = n) (hlow : sizeHeader ≤ n) (hhigh : n < 2 ^ 31)
    (throws : Bool) (total : Int32) (baos : List UInt8) (chunks : List (Chunk n)) :
    ∃ pre rest, chunks = pre ++ rest ∧
      Reads total buf baos pre rest (readLoop throws total buf baos chunks) := by
  induction chunks generalizing total buf baos with
  | nil =>
    refine ⟨[], [], rfl, ?_⟩
    rw [readLoop]
    by_cases hthrows : total < limit buf ∧ throws
    · rw [if_pos hthrows]
      have hnot := not_full_of_lt_limit (hn ▸ hlow) (hn ▸ hhigh) hthrows.1
      exact .nil (iff_of_false Bool.false_ne_true hnot) (.inl rfl)
    · rw [if_neg hthrows]
      exact .nil decide_eq_true_iff (.inl rfl)
  | cons chunk l ih =>
    rw [readLoop]
    by_cases hgo : total < limit buf
    · rw [if_pos hgo]
      have hlength := StepB.length_receiveInto (chunk.length_le.trans hn.ge)
      have hlimit : limit (StepB.receiveInto buf chunk.bytes) = limit buf := by
        rw [limit, hlength, limit]
      obtain ⟨pre, rest, rfl, h⟩ := ih (hlength.trans hn)
        (total + Int32.ofNat chunk.bytes.length) (baos ++ chunk.bytes)
      refine ⟨chunk :: pre, rest, rfl, ?_, h.buf_eq, ?_, h.rest_eq, ?_, ?_⟩
      · rw [add_length_cons, h.filled_iff, hlength]
      · rw [h.baos_eq, bytes_cons, List.append_assoc]
      · rintro (_ | ⟨c, init⟩) last hpre hlast
        · rwa [add_length_nil]
        · obtain ⟨rfl, rfl⟩ := List.cons.inj hpre
          rw [add_length_cons, ← hlimit]
          exact h.goes init last rfl hlast
      · rw [add_length_cons, ← hlimit]
        exact h.stops
    · rw [if_neg hgo]
      exact ⟨[], chunk :: l, rfl, .nil decide_eq_true_iff (.inr hgo)⟩

/-! ## When the buffer is filled -/

section

variable {rest : List (Chunk n)} {o : Outcome n}

theorem Reads.filled_iff_length (h : Reads 0 buf baos pre rest o) (hhigh : buf.length < 2 ^ 31)
    (hpre : (bytes pre).length ≤ buf.length) :
    o.filled = true ↔ (bytes pre).length = buf.length := by
  rw [h.filled_iff, Int32.zero_add, StepB.ofNat_injective (by omega) hhigh]

/-- Chunks that make up a packet, the last of them longer than a header, are read. -/
theorem Reads.eq_of_length {init r : List (Chunk n)} {last : Chunk n}
    (h : Reads 0 buf baos pre rest o) (hlow : sizeHeader ≤ buf.length) (hhigh : buf.length < 2 ^ 31)
    (hchunks : pre ++ rest = init ++ last :: r)
    (hlength : (bytes (init ++ [last])).length = buf.length)
    (hlast : sizeHeader < last.bytes.length) : pre = init ++ [last] ∧ rest = r := by
  have hsum : (bytes init).length + last.bytes.length = buf.length := by
    rw [← hlength, bytes_append, List.length_append, bytes_cons, bytes_nil, List.append_nil]
  rw [List.append_cons init last r, List.append_eq_append_iff] at hchunks
  rcases hchunks with ⟨bs, hpre, rfl⟩ | ⟨as, rfl, rfl⟩
  · -- The loop stopped too early.
    rcases List.eq_nil_or_concat' bs with rfl | ⟨bs, c, rfl⟩
    · exact ⟨by rw [hpre, List.append_nil], rfl⟩
    · rw [← List.append_assoc] at hpre
      obtain ⟨rfl, -⟩ := List.append_inj' hpre rfl
      rw [bytes_append, List.length_append] at hsum
      have hstops := h.stops.resolve_left (by simp)
      rw [Int32.zero_add, ofNat_lt_limit hlow hhigh (by omega)] at hstops
      omega
  · -- The loop went on.
    rcases as with _ | ⟨c, as⟩
    · exact ⟨List.append_nil _, rfl⟩
    · have hgoes := h.goes (init ++ [last]) (c :: as) rfl (List.cons_ne_nil c as)
      rw [Int32.zero_add, hlength, ofNat_lt_limit hlow hhigh hhigh] at hgoes
      omega

/-- The chunks read are the packet. -/
theorem Reads.overlays (h : Reads 0 buf baos pre rest o) (hn : buf.length = n)
    (hlow : sizeHeader ≤ buf.length) (hhigh : buf.length < 2 ^ 31)
    (hlength : (bytes pre).length = buf.length) (hbuf : o.buf = bytes pre) :
    Overlays buf (pre ++ rest) := by
  rcases List.eq_nil_or_concat' pre with rfl | ⟨init, last, rfl⟩
  · rw [bytes_nil, List.length_nil] at hlength
    rw [sizeHeader] at hlow
    omega
  · refine ⟨init, last, rest, List.append_assoc _ _ _, hlength, ?_, fun j _ => ?_⟩
    · have hgoes := h.goes init [last] rfl (List.cons_ne_nil last [])
      rw [bytes_append, List.length_append, bytes_cons, bytes_nil, List.append_nil] at hlength
      rw [Int32.zero_add, ofNat_lt_limit hlow hhigh (by omega)] at hgoes
      omega
    · rw [← getElem?_written hn, ← h.buf_eq, hbuf]

end

/-- The buffer is filled as it should be if and only if less than a packet arrives, or a chunk
    ends where the packet does, is longer than a header, and the chunks are the packet when they
    are written over each other. -/
theorem fillsBuffer_iff (hlow : sizeHeader ≤ buf.length) (hhigh : buf.length < 2 ^ 31)
    (throws : Bool) (chunks : List (Chunk buf.length)) :
    FillsBuffer throws buf chunks ↔
      (bytes chunks).length < buf.length ∨ Overlays buf chunks := by
  obtain ⟨pre, rest, rfl, h⟩ := exists_reads rfl hlow hhigh throws 0 [] chunks
  change Reads 0 buf [] pre rest (read throws buf (pre ++ rest)) at h
  rw [FillsBuffer, h.rest_eq, bytes_append]
  constructor
  · rintro ⟨hfilled, hread⟩
    refine or_iff_not_imp_left.2 fun hlong => ?_
    obtain ⟨hbuf, hrest⟩ := hread (hfilled.2 (Nat.le_of_not_lt hlong))
    have hlength := congrArg List.length hrest
    rw [List.length_drop, List.length_append] at hlength
    rw [List.length_append] at hlong
    have hpre : (bytes pre).length = buf.length := by omega
    rw [List.take_left' hpre] at hbuf
    exact h.overlays rfl hlow hhigh hpre hbuf
  · rintro (hshort | ⟨init, last, r, hchunks, hlength, hlast, hbytes⟩)
    · rw [List.length_append] at hshort
      have hnot : ¬(read throws buf (pre ++ rest)).filled = true := by
        rw [h.filled_iff_length hhigh (by omega)]
        omega
      refine ⟨iff_of_false hnot ?_, fun hfilled => absurd hfilled hnot⟩
      rw [List.length_append]
      omega
    · obtain ⟨rfl, rfl⟩ := h.eq_of_length hlow hhigh hchunks hlength hlast
      have hfilled := (h.filled_iff_length hhigh hlength.le).2 hlength
      refine ⟨iff_of_true hfilled ?_, fun _ => ⟨?_, (List.drop_left' hlength).symm⟩⟩
      · rw [List.length_append]
        omega
      · rw [List.take_left' hlength, h.buf_eq]
        refine List.ext_getElem? fun j => ?_
        by_cases hj : j < buf.length
        · rw [getElem?_written rfl, hbytes j hj]
        · have hge := Nat.le_of_not_lt hj
          rw [List.getElem?_eq_none (hge.trans' (length_written rfl _).le),
            List.getElem?_eq_none (hge.trans' hlength.le)]

/-! ## Sessions -/

theorem readLoop_of_session {k total : ℕ} {b : List UInt8} {rest : List (List UInt8)}
    (hn : buf.length = n) (hlow : sizeHeader ≤ n) (hhigh : n < 2 ^ 30) (hk : k < 2 ^ 31)
    (throws : Bool) (baos : List UInt8)
    (h : Session.readLoop k buf (chunks.map Chunk.bytes) = some (total, b, rest)) :
    ∃ o, readLoop throws (Int32.ofNat k) buf baos chunks = o ∧
      o.filled = decide (total = buf.length) ∧ o.buf = b ∧ o.rest.map Chunk.bytes = rest := by
  have hlimit : Int32.ofNat k < limit buf ↔ k + sizeHeader < buf.length :=
    ofNat_lt_limit (hn ▸ hlow) (by omega) hk
  have hfull : Int32.ofNat k = Int32.ofNat buf.length ↔ k = buf.length :=
    StepB.ofNat_injective hk (by omega)
  induction chunks generalizing k buf baos with
  | nil =>
    rw [List.map_nil, Session.readLoop] at h
    rw [readLoop]
    by_cases hgo : k + sizeHeader < buf.length
    · rw [if_pos hgo] at h
      cases h
    · rw [if_neg hgo] at h
      obtain ⟨rfl, rfl, rfl⟩ := h
      rw [if_neg fun hthrows => hgo (hlimit.1 hthrows.1)]
      exact ⟨_, rfl, decide_eq_decide.2 hfull, rfl, rfl⟩
  | cons chunk l ih =>
    rw [List.map_cons, Session.readLoop] at h
    rw [readLoop]
    by_cases hgo : k + sizeHeader < buf.length
    · have hle := chunk.length_le.trans hn.ge
      have hlength := StepB.length_receiveInto hle
      rw [if_pos hgo, if_pos hle] at h
      rw [if_pos (hlimit.2 hgo), ← Int32.ofNat_add, ← hlength]
      have hk' : k + chunk.bytes.length < 2 ^ 31 := by omega
      refine ih (hlength.trans hn) hk' _ h ?_ ?_
      · exact ofNat_lt_limit (hlow.trans (hlength.trans hn).ge) (by omega) hk'
      · exact StepB.ofNat_injective hk' (by omega)
    · rw [if_neg hgo] at h
      obtain ⟨rfl, rfl, rfl⟩ := h
      rw [if_neg fun hlt => hgo (hlimit.1 hlt)]
      exact ⟨_, rfl, decide_eq_decide.2 hfull, rfl, rfl⟩

/-- In a session `in.read` hands over packets as a whole. What is read there is what is read
    here. -/
theorem read_of_session {filled : Bool} {b : List UInt8} {rest : List (List UInt8)}
    (hn : buf.length = n) (hlow : sizeHeader ≤ n) (hhigh : n < 2 ^ 30) (throws : Bool)
    (h : Session.read buf (chunks.map Chunk.bytes) = some (filled, b, rest)) :
    ∃ o, read throws buf chunks = o ∧ o.filled = filled ∧ o.buf = b ∧
      o.rest.map Chunk.bytes = rest := by
  obtain ⟨⟨total, b', rest'⟩, hloop, hr⟩ := Option.map_eq_some_iff.1 h
  obtain ⟨hfilled, rfl, rfl⟩ := Prod.mk.injEq .. ▸ hr
  obtain ⟨o, ho, hof, hbuf, hrest⟩ :=
    readLoop_of_session hn hlow hhigh (by decide) throws [] hloop
  exact ⟨o, ho, hof.trans hfilled, hbuf, hrest⟩

end

/-- A packet without a payload. -/
def headerOnly : Chunk 12 := ⟨[0, 0, 0, 0, 0, 0, 0, 7, 0, 1, 1, 216], by decide, by decide⟩

/-- The first byte of a packet of four bytes, and the others. -/
def parts : List (Chunk 16) :=
  [⟨[0, 0, 0], by decide, by decide⟩,
    ⟨[4, 0, 0, 0, 7, 0, 1, 1, 216, 1, 2, 3, 4], by decide, by decide⟩]

/-- A packet in two parts, of which the second is written over a part of the first that is the
    same, and the first bytes of the next packet. -/
def overlaid : List (Chunk 40) :=
  [⟨List.replicate 14 0 ++ [1, 2, 3, 4, 5, 6, 7, 8, 9, 10, 11, 12], by decide, by decide⟩,
    ⟨List.replicate 14 0, by decide, by decide⟩, ⟨[0, 0, 0, 4], by decide, by decide⟩]

theorem fillsBuffer_iff_overlaid : FillsBuffer false (Session.newBytes 40) overlaid ∧
    (read false (Session.newBytes 40) overlaid).filled = true ∧
    (read false (Session.newBytes 40) overlaid).rest.map Chunk.bytes = [[0, 0, 0, 4]] :=
  ⟨(fillsBuffer_iff (by decide) (by decide) false _).2
    (.inr ⟨[_], _, [_], rfl, rfl, by decide, by decide⟩), by decide, by decide⟩

/-- Nothing is read of a packet without a payload; one in two parts is overwritten. -/
theorem not_fillsBuffer : ¬FillsBuffer false (Session.newBytes 12) [headerOnly] ∧
    ¬FillsBuffer false (Session.newBytes 16) parts := by
  constructor
  · rintro ⟨hfilled, -⟩
    exact absurd (hfilled.2 (by decide)) (by decide)
  · rintro ⟨-, hread⟩
    exact absurd (hread (by decide)).1 (by decide)

end Cse461.Secrets.Read
