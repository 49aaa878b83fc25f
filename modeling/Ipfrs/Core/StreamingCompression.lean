import Mathlib.Algebra.BigOperators.Group.List.Basic
import Ipfrs.Lib.ListChunks
import Ipfrs.Lib.ReadLoop
import Ipfrs.Core.Cid

/-!
# Streaming compression

`CompressingStream` and `DecompressingStream` (`ipfrs-core/src/streaming_compression.rs`), over a
reader that has its bytes in memory.

Both read their source in pieces of `buffer_size` bytes and apply the codec to each piece by itself.
So the compressed forms stand one after the other in what the compressing stream yields, with
nothing that says where one ends, and the decompressing stream cuts them at its own size.

* `PieceStream.drains` — what is read from such a stream, with room for any number of bytes at a
  time;
* `LinedUp` — the pieces the decompressing stream cuts are compressed forms of pieces of the data;
* `roundTrips_iff` — the data come back, for all that is known of the codec, exactly then.

The codec is the pair of functions that an algorithm selects in `compression.rs`. The scratch buffer
is left out, and a cursor is what is left to read of it. With the scratch buffer goes the panic of
`BytesMut::with_capacity`: `withBufferSize` is the source's for sizes up to `isize::MAX`, and what
is said of a larger size is said of a stream that no caller gets.
-/

namespace Ipfrs

/-- `compress` at a level, and `decompress`, for one algorithm. -/
structure Codec where
  compress : ℕ → Bytes → Except Error Bytes
  decompress : Bytes → Except Error Bytes

/-- What was compressed can be decompressed. -/
def Codec.Lawful (codec : Codec) (level : ℕ) : Prop :=
  ∀ d, ∃ z, codec.compress level d = .ok z ∧ codec.decompress z = .ok d

structure StreamingStats where
  bytesRead : ℕ := 0
  bytesWritten : ℕ := 0
  deriving DecidableEq, Repr

/-- The fields of a `CompressingStream` and of a `DecompressingStream` that change. -/
structure PieceStream where
  reader : Bytes
  /-- What is left of `compressed_buffer` or `decompressed_buffer`. -/
  pending : Bytes
  stats : StreamingStats
  finished : Bool
  bufferSize : ℕ

namespace PieceStream

/-- A new stream. -/
def ofReader (reader : Bytes) (bufferSize : ℕ) : PieceStream where
  reader := reader
  pending := []
  stats := {}
  finished := false
  bufferSize := bufferSize

/-- `poll_read`, with room for `remaining` bytes and the function `f` for the pieces. -/
def pollRead (f : Bytes → Except Error Bytes) (remaining : ℕ) (st : PieceStream) :
    PieceStream × Except String Bytes :=
  if st.pending ≠ [] then
    ({ st with pending := st.pending.drop remaining }, .ok (st.pending.take remaining))
  else if st.finished then (st, .ok [])
  else
    let data := st.reader.take st.bufferSize
    let st := { st with reader := st.reader.drop st.bufferSize }
    if data = [] then ({ st with finished := true }, .ok [])
    else
      let st := { st with
        stats := { st.stats with bytesRead := st.stats.bytesRead + data.length } }
      match f data with
      | .error e => (st, .error e.display)
      | .ok out =>
        ({ st with
          stats := { st.stats with bytesWritten := st.stats.bytesWritten + out.length }
          pending := out.drop remaining }, .ok (out.take remaining))

end PieceStream

namespace CompressingStream

def withBufferSize (reader : Bytes) (level bufferSize : ℕ) : Except Error PieceStream :=
  if level > 9 then
    .error (.invalidInput ("compression level must be 0-9, got " ++ toString level))
  else .ok (.ofReader reader bufferSize)

def pollRead (codec : Codec) (level remaining : ℕ) (st : PieceStream) :
    PieceStream × Except String Bytes :=
  st.pollRead (codec.compress level) remaining

end CompressingStream

namespace DecompressingStream

def withBufferSize (reader : Bytes) (bufferSize : ℕ) : Except Error PieceStream :=
  .ok (.ofReader reader bufferSize)

def pollRead (codec : Codec) (remaining : ℕ) (st : PieceStream) :
    PieceStream × Except String Bytes :=
  st.pollRead codec.decompress remaining

end DecompressingStream

/-! ### What a stream yields -/

namespace PieceStream

variable (f : Bytes → Except Error Bytes)

/-- The function for the pieces, with the error as the stream reports it. -/
def apply (piece : Bytes) : Except String Bytes := (f piece).mapError Error.display

variable {piece : Bytes} {st : PieceStream}

variable {f} in
theorem apply_ok {out : Bytes} (h : f piece = .ok out) : apply f piece = .ok out := by
  unfold apply
  rw [h]
  rfl

variable {f} in
theorem apply_error {e : Error} (h : f piece = .error e) : apply f piece = .error e.display := by
  unfold apply
  rw [h]
  rfl

/-- What is still to come. -/
def rest (st : PieceStream) : Except String Bytes :=
  if st.finished then .ok st.pending
  else (ReadLoop.yields (apply f) (ListChunks.chunks st.bufferSize st.reader)).map
    (st.pending ++ ·)

/-- What is still to do: the bytes to come, and one for every piece to read. -/
def work (st : PieceStream) : ℕ :=
  ((ListChunks.chunks st.bufferSize st.reader).map fun piece =>
    ((f piece).toOption.getD []).length + 1).sum + st.pending.length

variable {f}

theorem rest_append {st' : PieceStream} {l : Bytes} (hpending : st.pending = l ++ st'.pending)
    (hreader : st'.reader = st.reader) (hsize : st'.bufferSize = st.bufferSize)
    (hfinished : st'.finished = st.finished) : rest f st = (rest f st').map (l ++ ·) := by
  unfold rest
  rw [hfinished, hreader, hsize, hpending]
  split
  · rfl
  · rw [ReadLoop.map_append_map]

theorem rest_of_piece (hpending : st.pending = []) (hfinished : st.finished = false)
    (hsize : 1 ≤ st.bufferSize) (hreader : st.reader ≠ []) :
    rest f st = ReadLoop.yields (apply f) (st.reader.take st.bufferSize ::
      ListChunks.chunks st.bufferSize (st.reader.drop st.bufferSize)) := by
  unfold rest
  rw [hpending, hfinished, ← ListChunks.chunks_eq hsize hreader]
  generalize ReadLoop.yields _ _ = r
  cases r <;> rfl

theorem work_of_piece (hsize : 1 ≤ st.bufferSize) (hreader : st.reader ≠ []) :
    work f st = ((f (st.reader.take st.bufferSize)).toOption.getD []).length + 1 +
      work f { st with reader := st.reader.drop st.bufferSize } := by
  unfold work
  rw [ListChunks.chunks_eq hsize hreader, List.map_cons, List.sum_cons, Nat.add_assoc]

theorem pollRead_pending (hpending : st.pending ≠ []) (n : ℕ) :
    pollRead f n st =
      ({ st with pending := st.pending.drop n }, .ok (st.pending.take n)) :=
  if_pos hpending

theorem pollRead_end (hpending : st.pending = []) (n : ℕ)
    (hend : st.finished = true ∨ st.reader = []) : ∃ st', pollRead f n st = (st', .ok []) := by
  unfold pollRead
  rw [if_neg (not_not.mpr hpending)]
  rcases hend with hfinished | hreader
  · rw [if_pos hfinished]
    exact ⟨st, rfl⟩
  · split
    · exact ⟨st, rfl⟩
    · dsimp only
      rw [hreader, if_pos List.take_nil]
      exact ⟨_, rfl⟩

/-- The next piece of the source is read, and the function is applied to it. -/
theorem pollRead_piece (hpending : st.pending = []) (hfinished : st.finished = false)
    (hpiece : st.reader.take st.bufferSize ≠ []) (n : ℕ) :
    (∃ e st', f (st.reader.take st.bufferSize) = .error e ∧
      pollRead f n st = (st', .error e.display)) ∨
    ∃ out stats, f (st.reader.take st.bufferSize) = .ok out ∧
      pollRead f n st =
        ({ st with
            reader := st.reader.drop st.bufferSize, pending := out.drop n, stats := stats },
          .ok (out.take n)) := by
  unfold pollRead
  rw [if_neg (not_not.mpr hpending), if_neg (by rw [hfinished]; exact Bool.false_ne_true)]
  dsimp only
  rw [if_neg hpiece]
  cases hf : f (st.reader.take st.bufferSize) with
  | error e => exact Or.inl ⟨e, _, rfl, rfl⟩
  | ok out => exact Or.inr ⟨out, _, rfl, rfl⟩

/-- **One `poll_read`.** -/
theorem reads_pollRead :
    ReadLoop.Reads (fun n st => pollRead f n st) (rest f) (work f) fun st => 1 ≤ st.bufferSize := by
  intro n st hn hsize
  obtain ⟨m, rfl⟩ : ∃ m, n = m + 1 := ⟨n - 1, by omega⟩
  cases hpending : st.pending with
  | cons a pending =>
    -- something is left of the last piece
    have hread := pollRead_pending (f := f) (by rw [hpending]; exact List.cons_ne_nil _ _) (m + 1)
    rw [hpending] at hread
    change pollRead f (m + 1) st =
      ({ st with pending := pending.drop m }, .ok (a :: pending.take m)) at hread
    refine Or.inr (Or.inr ⟨_, a, pending.take m, hread, rest_append ?_ rfl rfl rfl, ?_, hsize⟩)
    · rw [hpending, List.cons_append, List.take_append_drop]
    · unfold work
      rw [hpending, List.length_cons]
      have hle : (pending.drop m).length ≤ pending.length := by
        rw [List.length_drop]
        exact Nat.sub_le _ _
      dsimp only
      omega
  | nil =>
    cases hfinished : st.finished with
    | true =>
      obtain ⟨st', hread⟩ := pollRead_end (f := f) hpending (m + 1) (Or.inl hfinished)
      refine Or.inr (Or.inl ⟨st', hread, ?_⟩)
      unfold rest
      rw [if_pos hfinished, hpending]
    | false =>
      by_cases hreader : st.reader = []
      · -- the end of the source
        obtain ⟨st', hread⟩ := pollRead_end (f := f) hpending (m + 1) (Or.inr hreader)
        refine Or.inr (Or.inl ⟨st', hread, ?_⟩)
        unfold rest
        rw [if_neg (by simp [hfinished]), hreader, ListChunks.chunks_nil, hpending]
        rfl
      -- the next piece is not empty
      have hpiece : st.reader.take st.bufferSize ≠ [] := by
        rw [Ne, List.take_eq_nil_iff, not_or]
        exact ⟨Nat.ne_of_gt hsize, hreader⟩
      have hrest := rest_of_piece (f := f) hpending hfinished hsize hreader
      have hwork := work_of_piece (f := f) hsize hreader
      unfold ReadLoop.yields at hrest
      rcases pollRead_piece (f := f) hpending hfinished hpiece (m + 1) with ⟨e, st', hf, hread⟩ |
        ⟨out, stats, hf, hread⟩
      · rw [apply_error hf] at hrest
        exact Or.inl ⟨st', e.display, hread, hrest⟩
      · rw [apply_ok hf] at hrest
        rw [hf] at hwork
        cases out with
        | nil =>
          -- an empty result is taken for the end
          exact Or.inr (Or.inl ⟨_, hread, hrest⟩)
        | cons a out =>
          change pollRead f (m + 1) st =
            ({ st with
                reader := st.reader.drop st.bufferSize, pending := out.drop m, stats := stats },
              .ok (a :: out.take m)) at hread
          refine Or.inr (Or.inr ⟨_, a, out.take m, hread, ?_, ?_, hsize⟩)
          · rw [hrest]
            unfold rest
            dsimp only
            rw [if_neg (by simp [hfinished]), ReadLoop.map_append_map, List.cons_append,
              List.take_append_drop]
          · rw [hwork]
            unfold work
            dsimp only [Except.toOption, Option.getD_some]
            rw [List.length_cons, List.length_drop, hpending, List.length_nil]
            omega

/-- **What is read from a stream**, with room for any number of bytes at a time. -/
theorem drains {sizes : ℕ → ℕ} (hsizes : ∀ i, 1 ≤ sizes i) (reader : Bytes) {bufferSize : ℕ}
    (hsize : 1 ≤ bufferSize) :
    ReadLoop.Drains (fun n st => pollRead f n st) sizes (ofReader reader bufferSize)
      (ReadLoop.yields (apply f) (ListChunks.chunks bufferSize reader)) := by
  have hdrain := ReadLoop.drains (reads_pollRead (f := f)) hsizes (s := ofReader reader bufferSize)
    hsize
  have hrest : rest f (ofReader reader bufferSize) =
      ReadLoop.yields (apply f) (ListChunks.chunks bufferSize reader) := by
    unfold rest ofReader
    rw [if_neg Bool.false_ne_true]
    generalize ReadLoop.yields _ _ = r
    cases r <;> rfl
  rw [← hrest]
  exact hdrain

end PieceStream

/-! ### The round trip -/

/-- Draining a decompressing stream over what a compressing stream yields gives the data, however
much the callers read at a time. The buffer sizes are those that can be allocated. -/
def RoundTrips (codec : Codec) (level compressSize decompressSize : ℕ) (data : Bytes) : Prop :=
  ∀ sizes sizes' : ℕ → ℕ, (∀ i, 1 ≤ sizes i) → (∀ i, 1 ≤ sizes' i) →
    ∃ st compressed st',
      CompressingStream.withBufferSize data level compressSize = .ok st ∧
      ReadLoop.Drains (CompressingStream.pollRead codec level) sizes st (.ok compressed) ∧
      DecompressingStream.withBufferSize compressed decompressSize = .ok st' ∧
      ReadLoop.Drains (DecompressingStream.pollRead codec) sizes' st' (.ok data)

/-- The bytes that the compressing stream yields. -/
def sentBytes (compress : ℕ → Bytes → Except Error Bytes) (level compressSize : ℕ)
    (data : Bytes) : Bytes :=
  ((ReadLoop.yields (PieceStream.apply (compress level))
    (ListChunks.chunks compressSize data)).toOption).getD []

/-- The pieces in which the decompressing stream reads them. -/
def cuts (compress : ℕ → Bytes → Except Error Bytes) (level compressSize decompressSize : ℕ)
    (data : Bytes) : List Bytes :=
  ListChunks.chunks decompressSize (sentBytes compress level compressSize data)

/-- **Frames and buffers line up**: the pieces in which the decompressing stream reads are the
compressed forms of non-empty pieces of the data, in order, up to the end or to the compressed form
of nothing. -/
def LinedUp (compress : ℕ → Bytes → Except Error Bytes) (level compressSize decompressSize : ℕ)
    (data : Bytes) : Prop :=
  ∃ pieces : List Bytes, (∀ p ∈ pieces, p ≠ []) ∧ pieces.flatten = data ∧
    ReadLoop.UpTo (fun cut piece => compress level piece = .ok cut)
      (cuts compress level compressSize decompressSize data) pieces

section RoundTrip

variable {compress : ℕ → Bytes → Except Error Bytes} {level compressSize decompressSize : ℕ}
  {data : Bytes}

theorem yields_compress (hcompress : ∀ d, ∃ z, compress level d = .ok z) (pieces : List Bytes) :
    ∃ z, ReadLoop.yields (PieceStream.apply (compress level)) pieces = .ok z := by
  induction pieces with
  | nil => exact ⟨[], rfl⟩
  | cons piece pieces ih =>
    obtain ⟨z, hz⟩ := hcompress piece
    obtain ⟨zs, hzs⟩ := ih
    unfold ReadLoop.yields
    rw [PieceStream.apply_ok hz, hzs]
    cases z with
    | nil => exact ⟨[], rfl⟩
    | cons a z => exact ⟨_, rfl⟩

variable {decompress : Bytes → Except Error Bytes}

/-- **When the data come back from one codec**: the pieces that are read decompress, one by one, to
non-empty pieces of the data, up to the end or to a piece that decompresses to nothing. -/
theorem roundTrips_iff_pieces (hlevel : level ≤ 9) (hcompressSize : 1 ≤ compressSize)
    (hdecompressSize : 1 ≤ decompressSize) (hlawful : Codec.Lawful ⟨compress, decompress⟩ level) :
    RoundTrips ⟨compress, decompress⟩ level compressSize decompressSize data ↔
      ∃ pieces : List Bytes, (∀ p ∈ pieces, p ≠ []) ∧ pieces.flatten = data ∧
        ReadLoop.UpTo (fun cut piece => decompress cut = .ok piece)
          (cuts compress level compressSize decompressSize data) pieces := by
  have hiff : ∀ cut piece, PieceStream.apply decompress cut = .ok piece ↔
      decompress cut = .ok piece := by
    intro cut piece
    exact Except.mapError_eq_ok_iff
  simp only [← hiff]
  rw [← ReadLoop.yields_eq_ok_iff]
  have hopen : ∀ d, CompressingStream.withBufferSize d level compressSize =
      .ok (.ofReader d compressSize) := fun d => if_neg (Nat.not_lt.mpr hlevel)
  -- no piece fails to compress, so there are bytes that are sent
  obtain ⟨sent, hsent⟩ := yields_compress
    (fun d => (hlawful d).imp fun _ h => h.1) (ListChunks.chunks compressSize data)
  have hbytes : sentBytes compress level compressSize data = sent := by
    unfold sentBytes
    rw [hsent]
    rfl
  unfold cuts
  rw [hbytes]
  constructor
  · -- reading byte by byte is enough to find out
    intro h
    obtain ⟨st, compressed, st', hst, hdrain, hst', hdrain'⟩ :=
      h (fun _ => 1) (fun _ => 1) (fun _ => le_refl 1) fun _ => le_refl 1
    rw [hopen] at hst
    obtain rfl := Except.ok.inj hst
    obtain rfl := Except.ok.inj hst'
    have hsent' := PieceStream.drains (f := compress level) (fun _ => le_refl 1) data hcompressSize
    rw [hsent] at hsent'
    obtain rfl := Except.ok.inj (hsent'.unique hdrain)
    have hback := PieceStream.drains (f := decompress) (fun _ => le_refl 1) sent hdecompressSize
    exact hback.unique hdrain'
  · intro h sizes sizes' hsizes hsizes'
    refine ⟨_, sent, _, hopen data, ?_, rfl, ?_⟩
    · rw [← hsent]
      exact PieceStream.drains hsizes data hcompressSize
    · rw [← h]
      exact PieceStream.drains hsizes' sent hdecompressSize

open Classical in
/-- A codec that accepts nothing but what was compressed. -/
noncomputable def strict (compress : ℕ → Bytes → Except Error Bytes) (level : ℕ) (z : Bytes) :
    Except Error Bytes :=
  if h : ∃ d, compress level d = .ok z then .ok h.choose
  else .error (.serialization "not a compressed form")

theorem compress_of_strict {z d : Bytes} (h : strict compress level z = .ok d) :
    compress level d = .ok z := by
  unfold strict at h
  split at h
  · next hex =>
    rw [← Except.ok.inj h]
    exact hex.choose_spec
  · exact absurd h (by simp)

theorem lawful_strict (hlawful : Codec.Lawful ⟨compress, decompress⟩ level) :
    Codec.Lawful ⟨compress, strict compress level⟩ level := by
  intro d
  obtain ⟨z, hz, hback⟩ := hlawful d
  have hex : ∃ d, compress level d = .ok z := ⟨d, hz⟩
  refine ⟨z, hz, ?_⟩
  change strict compress level z = .ok d
  unfold strict
  rw [dif_pos hex]
  -- two data with one compressed form would decompress alike
  obtain ⟨z', hz', hback'⟩ := hlawful hex.choose
  obtain rfl := Except.ok.inj (hz'.symm.trans hex.choose_spec)
  exact hback'.symm.trans hback

/-- **When streaming compression round-trips.** The data come back from a given codec exactly when
the pieces that the decompressing stream reads decompress to non-empty pieces of the data, one by
one. Of a codec it is only known that it decompresses what it has compressed; with no more than
that, they come back exactly when the compressed forms line up with the pieces. -/
theorem roundTrips_iff (hlevel : level ≤ 9) (hcompressSize : 1 ≤ compressSize)
    (hdecompressSize : 1 ≤ decompressSize)
    (hcodec : ∃ decompress, Codec.Lawful ⟨compress, decompress⟩ level) (data : Bytes) :
    (∀ decompress, Codec.Lawful ⟨compress, decompress⟩ level →
      (RoundTrips ⟨compress, decompress⟩ level compressSize decompressSize data ↔
        ∃ pieces : List Bytes, (∀ p ∈ pieces, p ≠ []) ∧ pieces.flatten = data ∧
          ReadLoop.UpTo (fun cut piece => decompress cut = .ok piece)
            (cuts compress level compressSize decompressSize data) pieces)) ∧
    ((∀ decompress, Codec.Lawful ⟨compress, decompress⟩ level →
        RoundTrips ⟨compress, decompress⟩ level compressSize decompressSize data) ↔
      LinedUp compress level compressSize decompressSize data) := by
  refine ⟨fun decompress hlawful => roundTrips_iff_pieces hlevel hcompressSize hdecompressSize
    hlawful, fun h => ?_, ?_⟩
  · -- a strict codec tells the compressed forms from other bytes
    obtain ⟨decompress, hlawful⟩ := hcodec
    have hstrict := lawful_strict hlawful
    obtain ⟨pieces, hne, hflat, hup⟩ :=
      (roundTrips_iff_pieces hlevel hcompressSize hdecompressSize hstrict).mp (h _ hstrict)
    exact ⟨pieces, hne, hflat, hup.imp fun cut piece => compress_of_strict⟩
  · rintro ⟨pieces, hne, hflat, hup⟩ decompress hlawful
    refine (roundTrips_iff_pieces hlevel hcompressSize hdecompressSize hlawful).mpr
      ⟨pieces, hne, hflat, hup.imp fun cut piece hcut => ?_⟩
    obtain ⟨z, hz, hback⟩ := hlawful piece
    obtain rfl := Except.ok.inj (hcut.symm.trans hz)
    exact hback

/-- Compressed forms that are not empty are sent one after the other. -/
theorem sentBytes_eq {frames : List Bytes} (hne : ∀ frame ∈ frames, frame ≠ [])
    (hframes : List.Forall₂ (fun piece frame => compress level piece = .ok frame)
      (ListChunks.chunks compressSize data) frames) :
    sentBytes compress level compressSize data = frames.flatten := by
  have hyields : ReadLoop.yields (PieceStream.apply (compress level))
      (ListChunks.chunks compressSize data) = .ok frames.flatten := by
    refine ReadLoop.yields_eq_ok_iff.mpr ⟨frames, hne, rfl, _, [], (List.append_nil _).symm,
      hframes.imp fun piece frame h => ?_, fun piece hp => absurd hp (by simp)⟩
    exact Except.mapError_eq_ok_iff.mpr h
  unfold sentBytes
  rw [hyields]
  rfl

/-- They always do for the algorithm `None`, which compresses nothing. -/
theorem linedUp_none (hnone : ∀ d, compress level d = .ok d) :
    LinedUp compress level compressSize decompressSize data := by
  have hsent : sentBytes compress level compressSize data = data := by
    rw [sentBytes_eq (fun frame => ListChunks.ne_nil_of_mem_chunks)
      (List.forall₂_same.mpr fun piece _ => hnone piece), ListChunks.flatten_chunks]
  refine ⟨ListChunks.chunks decompressSize data, fun p => ListChunks.ne_nil_of_mem_chunks,
    ListChunks.flatten_chunks _ _, ListChunks.chunks decompressSize data, [], ?_,
    List.forall₂_same.mpr fun piece _ => hnone piece, fun cut hcut => absurd hcut (by simp)⟩
  unfold cuts
  rw [hsent, List.append_nil]

end RoundTrip

/-- The algorithm `None`. -/
def Codec.none : Codec := ⟨fun _ d => .ok d, .ok⟩

theorem roundTrips_iff_none : RoundTrips .none 3 2 1 [1, 2, 3] := by
  have hlawful : Codec.none.Lawful 3 := fun d => ⟨d, rfl, rfl⟩
  have hlevel : 3 ≤ 9 := by decide
  have hiff := roundTrips_iff hlevel (Nat.le_succ 1) (le_refl 1) ⟨_, hlawful⟩ [1, 2, 3]
  exact hiff.2.mpr (linedUp_none fun _ => rfl) _ hlawful

/-- A codec that marks its frames with a byte in front. -/
def Codec.tagged : Codec where
  compress _ d := .ok (0 :: d)
  decompress
    | 0 :: d => .ok d
    | _ => .error (.serialization "not a compressed form")

theorem not_forall_roundTrips :
    ¬ ∀ (codec : Codec) (level compressSize decompressSize : ℕ) (data : Bytes), level ≤ 9 →
      1 ≤ compressSize → 1 ≤ decompressSize → codec.Lawful level →
        RoundTrips codec level compressSize decompressSize data := by
  intro hall
  have hlawful : Codec.tagged.Lawful 3 := fun d => ⟨0 :: d, rfl, rfl⟩
  have hlevel : 3 ≤ 9 := by decide
  have hsize : 1 ≤ 4 := by decide
  have htrip := hall .tagged 3 1 4 [1, 2] hlevel (le_refl 1) hsize hlawful
  obtain ⟨pieces, -, hflat, hup⟩ :=
    (roundTrips_iff_pieces hlevel (le_refl 1) hsize hlawful).mp htrip
  change ReadLoop.UpTo (fun cut piece => Codec.tagged.decompress cut = .ok piece)
    (cuts Codec.tagged.compress 3 1 4 [1, 2]) pieces at hup
  -- two frames are compressed, and read as one
  have hcuts : cuts Codec.tagged.compress 3 1 4 [1, 2] = [[0, 1, 0, 2]] := by
    unfold cuts sentBytes
    simp [ListChunks.chunks, ReadLoop.yields, PieceStream.apply, Codec.tagged, Except.mapError,
      Except.map, Except.toOption]
  rw [hcuts] at hup
  rcases hup.inv with ⟨rfl, -⟩ | ⟨out, outs, rfl, hout, hrest⟩
  · exact absurd hflat (by simp)
  · obtain rfl := Except.ok.inj hout
    rw [hrest.of_nil] at hflat
    exact absurd hflat (by decide)

end Ipfrs
