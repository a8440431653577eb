import Barnabas.Core.Integers
import Barnabas.Lib.Action
import Barnabas.Lib.Run

/-!
Kafka's framing (`barnabas-core/src/frame.rs`): a 4-byte big-endian length, then
that many bytes.

A stream of bytes reads in one way only as frames and a rest that is no whole
frame. The decoder holds the bytes it has not handed out yet, so that how the
stream was cut into reads cannot show in what it returns.
-/

namespace Barnabas.Core

open Barnabas.Lib Barnabas.Lib.Act

/-- 100 MiB. -/
def defaultMaxFrame : ℕ := 100 * 1024 * 1024

/-- The largest `usize`, which stands for a length that was negative. -/
def usizeMax : ℕ := 2 ^ 64 - 1

/-- Reassembles length-prefixed frames from a byte stream. -/
structure FrameDecoder where
  buf : Bytes
  maxFrame : ℕ
  deriving DecidableEq, Repr

namespace FrameDecoder

def new (maxFrame : ℕ) : FrameDecoder := ⟨[], maxFrame⟩

/-- Feed bytes straight off the socket. -/
def push (bytes : Bytes) (decoder : FrameDecoder) : FrameDecoder :=
  { decoder with buf := decoder.buf ++ bytes }

/-- Take the next complete frame, if one has arrived. The length prefix is consumed
and not returned. -/
def nextFrame : Act FrameDecoder Error (Option Bytes) := do
  let decoder ← get
  match i32At decoder.buf 0 with
  -- Fewer than the four bytes of the prefix have arrived.
  | none => pure none
  | some len =>
      if len < 0 then throw (.frameTooLarge usizeMax decoder.maxFrame)
      else if decoder.maxFrame < len.toNat then throw (.frameTooLarge len.toNat decoder.maxFrame)
      else if decoder.buf.length < 4 + len.toNat then pure none
      else do
        let rest := decoder.buf.drop 4
        set { decoder with buf := rest.drop len.toNat }
        pure (some (rest.take len.toNat))

end FrameDecoder

/-- Prefix a body with its length, ready to write. -/
def frame (body : Bytes) : Except Error Bytes :=
  if i32Max < body.length then .error (.frameTooLarge body.length i32Max.toNat)
  else .ok (intBytes 4 body.length ++ body)

/-! ### Frames on a stream -/

/-- The bytes of a frame. -/
def framed (body : Bytes) : Bytes := intBytes 4 body.length ++ body

/-- The bytes of frames that follow each other. -/
def wire (bodies : List Bytes) : Bytes := bodies.flatMap framed

@[simp] theorem wire_nil : wire [] = [] := rfl

@[simp] theorem wire_cons (body : Bytes) (bodies : List Bytes) :
    wire (body :: bodies) = framed body ++ wire bodies := rfl

@[simp] theorem wire_append (bodies bodies' : List Bytes) :
    wire (bodies ++ bodies') = wire bodies ++ wire bodies' := by
  simp [wire]

@[simp] theorem framed_length (body : Bytes) : (framed body).length = 4 + body.length := by
  simp [framed]

/-- A body that a length prefix can announce. -/
def Announced (body : Bytes) : Prop := (body.length : ℤ) ≤ i32Max

theorem frame_eq_ok_iff {body bytes : Bytes} :
    frame body = .ok bytes ↔ Announced body ∧ bytes = framed body := by
  rw [frame, Announced]
  split
  · simp
    omega
  · rename_i h
    simp [framed, not_lt.mp h, eq_comm]

/-- What `frame` makes of a list of bodies. -/
theorem mapM_frame_eq_ok_iff {bodies frames : List Bytes} :
    bodies.mapM frame = .ok frames ↔
      (∀ body ∈ bodies, Announced body) ∧ frames = bodies.map framed := by
  induction bodies generalizing frames with
  | nil =>
      change (Except.ok [] : Except Error (List Bytes)) = .ok frames ↔ _
      simp [eq_comm]
  | cons body bodies ih =>
      rw [List.mapM_cons]
      rcases hframe : frame body with e | bytes
      · have hnot : ¬Announced body := fun h => by
          rw [frame_eq_ok_iff.mpr ⟨h, rfl⟩] at hframe
          cases hframe
        constructor
        · intro h
          cases h
        · exact fun h => absurd (h.1 body (by simp)) hnot
      · obtain ⟨hbody, rfl⟩ := frame_eq_ok_iff.mp hframe
        rcases hrest : bodies.mapM frame with e | more
        · constructor
          · intro h
            cases h
          · intro h
            have hmore := ih.mpr ⟨fun b hb => h.1 b (by simp [hb]), rfl⟩
            rw [hrest] at hmore
            cases hmore
        · obtain ⟨hbodies, rfl⟩ := ih.mp hrest
          change (Except.ok (framed body :: bodies.map framed) : Except Error _) = .ok frames ↔ _
          rw [Except.ok.injEq, List.forall_mem_cons, eq_comm]
          exact (and_iff_right ⟨hbody, hbodies⟩).symm

/-- The prefix of a frame is the length of its body. -/
theorem i32At_framed {body : Bytes} (h : Announced body) (rest : Bytes) :
    i32At (framed body ++ rest) 0 = some (body.length : ℤ) := by
  have hfits : Fits (8 * 4) (body.length : ℤ) := by
    rw [Announced, i32Max] at h
    constructor
    · norm_num
    · norm_num at h ⊢
      omega
  have hread := intAt_intBytes (by decide) hfits [] (body ++ rest)
  rw [List.nil_append, List.length_nil] at hread
  rw [framed, List.append_assoc]
  exact hread

/-- Four bytes that read as a length are the prefix of a body so long. -/
theorem eq_framed {buf : Bytes} {len : ℤ} (hlen : i32At buf 0 = some len) (hnonneg : 0 ≤ len)
    (hlong : 4 + len.toNat ≤ buf.length) :
    Announced ((buf.drop 4).take len.toNat) ∧
      buf = framed ((buf.drop 4).take len.toNat) ++ (buf.drop 4).drop len.toNat := by
  have hrange : getRange buf 0 (0 + 4) = some (buf.take 4) := by
    rw [getRange, if_pos (by omega)]
    rfl
  rw [i32At, intAt, hrange, Option.map_some, Option.some.injEq] at hlen
  have hlength : (buf.take 4).length = 4 := by
    rw [List.length_take]
    omega
  have hvalue := bigEndian_lt (buf.take 4)
  rw [hlength] at hvalue
  -- A nonnegative 32-bit reading is the value of the bytes itself.
  have heq : (bigEndian (buf.take 4) : ℤ) = len ∧ len < 2 ^ 31 := by
    rw [wrap, Int.bmod_def] at hlen
    norm_num at hlen hvalue ⊢
    split at hlen <;> omega
  have hbody : ((buf.drop 4).take len.toNat).length = len.toNat := by
    rw [List.length_take, List.length_drop]
    omega
  refine ⟨?_, ?_⟩
  · rw [Announced, hbody, i32Max]
    omega
  · have hprefix : intBytes 4 len = buf.take 4 := by
      have hmod : (len % 2 ^ (8 * 4)).toNat = bigEndian (buf.take 4) := by
        rw [Int.emod_eq_of_lt hnonneg (by norm_num; omega)]
        omega
      have hbytes := bytesOf_bigEndian (buf.take 4)
      rw [hlength] at hbytes
      rw [intBytes, hmod, hbytes]
    rw [framed, hbody, Int.toNat_of_nonneg hnonneg, hprefix, List.append_assoc,
      List.take_append_drop, List.take_append_drop]

/-- A stream reads as frames in one way only. -/
theorem prefix_of_wire {frames bodies : List Bytes} {rest : Bytes}
    (hframes : ∀ f ∈ frames, Announced f) (hbodies : ∀ b ∈ bodies, Announced b)
    (h : wire frames ++ rest <+: wire bodies) : frames <+: bodies := by
  induction frames generalizing bodies with
  | nil => exact List.nil_prefix
  | cons f frames ih =>
      obtain ⟨hf, hframes⟩ := List.forall_mem_cons.mp hframes
      cases bodies with
      | nil =>
          have hlength := h.length_le
          simp at hlength
      | cons b bodies =>
          obtain ⟨hb, hrestBodies⟩ := List.forall_mem_cons.mp hbodies
          obtain ⟨tail, htail⟩ := h
          rw [wire_cons, wire_cons, List.append_assoc, List.append_assoc] at htail
          have hlength : f.length = b.length := by
            have hleft := i32At_framed hf (wire frames ++ (rest ++ tail))
            rw [htail, i32At_framed hb, Option.some.injEq] at hleft
            omega
          obtain ⟨hhead, hrest⟩ := List.append_inj htail (by simp [hlength])
          obtain rfl : f = b := (List.append_inj hhead (by simp)).2
          rw [List.prefix_cons_inj]
          refine ih hframes hrestBodies ⟨tail, ?_⟩
          rw [← hrest, List.append_assoc]

/-! ### One call -/

namespace FrameDecoder

/-- The length prefix is all there, and no frame so long is taken. -/
def Refuses (decoder : FrameDecoder) : Prop :=
  ∃ len, i32At decoder.buf 0 = some len ∧ (len < 0 ∨ (decoder.maxFrame : ℤ) < len)

/-- The decoder waits for bytes, refuses the prefix and keeps everything, or takes a
frame off the front. -/
theorem nextFrame_cases (decoder : FrameDecoder) :
    (¬decoder.Refuses ∧ nextFrame decoder = (.ok none, decoder) ∧
        ∀ body rest, Announced body → decoder.buf ≠ framed body ++ rest) ∨
      (decoder.Refuses ∧ ∃ e, nextFrame decoder = (.error e, decoder)) ∨
      (¬decoder.Refuses ∧ ∃ body rest, Announced body ∧ decoder.buf = framed body ++ rest ∧
        nextFrame decoder = (.ok (some body), { decoder with buf := rest })) := by
  rw [nextFrame, bind_of_ok (get_apply decoder)]
  cases hlen : i32At decoder.buf 0 with
  | none =>
      refine .inl ⟨?_, rfl, ?_⟩
      · rintro ⟨len, hsome, -⟩
        rw [hlen] at hsome
        cases hsome
      · intro body rest hbody heq
        rw [heq, i32At_framed hbody] at hlen
        cases hlen
  | some len =>
      have hrefuses : decoder.Refuses ↔ len < 0 ∨ (decoder.maxFrame : ℤ) < len := by
        simp [Refuses, hlen]
      rw [hrefuses]
      dsimp only
      by_cases hneg : len < 0
      · rw [if_pos hneg]
        exact .inr (.inl ⟨.inl hneg, _, rfl⟩)
      · rw [if_neg hneg]
        by_cases hmax : decoder.maxFrame < len.toNat
        · rw [if_pos hmax]
          exact .inr (.inl ⟨.inr (by omega), _, rfl⟩)
        · rw [if_neg hmax]
          by_cases hshort : decoder.buf.length < 4 + len.toNat
          · rw [if_pos hshort]
            refine .inl ⟨by omega, rfl, ?_⟩
            intro body rest hbody heq
            rw [heq, i32At_framed hbody, Option.some.injEq] at hlen
            rw [heq, List.length_append, framed_length] at hshort
            omega
          · rw [if_neg hshort]
            obtain ⟨hannounced, heq⟩ := eq_framed hlen (by omega) (by omega)
            exact .inr (.inr ⟨by omega, _, _, hannounced, heq, rfl⟩)

theorem nextFrame_framed {decoder : FrameDecoder} {body rest : Bytes} (hbody : Announced body)
    (hmax : body.length ≤ decoder.maxFrame) (hbuf : decoder.buf = framed body ++ rest) :
    nextFrame decoder = (.ok (some body), { decoder with buf := rest }) := by
  have htakes : ¬decoder.Refuses := by
    rintro ⟨len, hlen, hrefused⟩
    rw [hbuf, i32At_framed hbody, Option.some.injEq] at hlen
    omega
  rcases nextFrame_cases decoder with ⟨-, -, hnone⟩ | ⟨hrefuses, -⟩ | ⟨-, body', rest', hbody', heq, hnext⟩
  · exact absurd hbuf (hnone body rest hbody)
  · exact absurd hrefuses htakes
  · rw [hbuf] at heq
    have hlength : body.length = body'.length := by
      have hleft := i32At_framed hbody rest
      rw [heq, i32At_framed hbody', Option.some.injEq] at hleft
      omega
    obtain ⟨hhead, rfl⟩ := List.append_inj heq (by simp [hlength])
    obtain rfl : body = body' := (List.append_inj hhead (by simp)).2
    exact hnext

/-- A stream of frames that are short enough is never refused, wherever it breaks off. -/
theorem not_refuses_of_prefix {decoder : FrameDecoder} {bodies : List Bytes}
    (hbodies : ∀ body ∈ bodies, Announced body ∧ body.length ≤ decoder.maxFrame)
    (hbuf : decoder.buf <+: wire bodies) : ¬decoder.Refuses := by
  rintro ⟨len, hlen, hrefused⟩
  obtain ⟨tail, htail⟩ := hbuf
  have hlong : 4 ≤ decoder.buf.length := by
    by_contra hshort
    rw [i32At, intAt, getRange, if_neg (by omega)] at hlen
    cases hlen
  have hread : i32At (wire bodies) 0 = some len := by
    rw [← htail, i32At, intAt_append (by omega)]
    exact hlen
  cases bodies with
  | nil =>
      simp at htail
      simp [htail] at hlong
  | cons body bodies =>
      obtain ⟨hannounced, hmax⟩ := hbodies body (by simp)
      rw [wire_cons, i32At_framed hannounced, Option.some.injEq] at hread
      omega

end FrameDecoder

/-! ### Runs -/

/-- What a reader does with a decoder. -/
inductive FrameOp
  | push (bytes : Bytes)
  | nextFrame

/-- A decoder in use, with the bytes it was fed and what its calls returned. -/
structure FrameRun where
  decoder : FrameDecoder
  pushed : Bytes
  results : List (Except Error (Option Bytes))

namespace FrameRun

def start (maxFrame : ℕ) : FrameRun := ⟨.new maxFrame, [], []⟩

def step (r : FrameRun) : FrameOp → FrameRun
  | .push bytes => { r with decoder := r.decoder.push bytes, pushed := r.pushed ++ bytes }
  | .nextFrame =>
      let (result, decoder) := FrameDecoder.nextFrame r.decoder
      { r with decoder, results := r.results ++ [result] }

/-- The frame a call returned, if it returned one. -/
def frameOf : Except Error (Option Bytes) → Option Bytes
  | .ok found => found
  | .error _ => none

/-- The frames returned so far. -/
def frames (r : FrameRun) : List Bytes := r.results.filterMap frameOf

/-- The decoder holds what was pushed and not handed out. -/
structure Sound (maxFrame : ℕ) (r : FrameRun) : Prop where
  limit : r.decoder.maxFrame = maxFrame
  announced : ∀ body ∈ r.frames, Announced body
  buffer : wire r.frames ++ r.decoder.buf = r.pushed

theorem sound_start (maxFrame : ℕ) : Sound maxFrame (start maxFrame) :=
  ⟨rfl, by simp [start, frames], rfl⟩

theorem Sound.step {maxFrame : ℕ} {r : FrameRun} (h : Sound maxFrame r) (op : FrameOp) :
    Sound maxFrame (r.step op) := by
  cases op with
  | push bytes =>
      refine ⟨h.limit, h.announced, ?_⟩
      change wire r.frames ++ (r.decoder.buf ++ bytes) = r.pushed ++ bytes
      rw [← List.append_assoc, h.buffer]
  | nextFrame =>
      have hstep : ∀ result decoder, FrameDecoder.nextFrame r.decoder = (result, decoder) →
          r.step .nextFrame = ⟨decoder, r.pushed, r.results ++ [result]⟩ := by
        intro result decoder hnext
        rw [FrameRun.step, hnext]
      have hkept : ∀ result, frameOf result = none →
          Sound maxFrame ⟨r.decoder, r.pushed, r.results ++ [result]⟩ := by
        intro result hresult
        have hsame : frames ⟨r.decoder, r.pushed, r.results ++ [result]⟩ = r.frames := by
          simp [frames, hresult]
        refine ⟨h.limit, ?_, ?_⟩
        · rw [hsame]
          exact h.announced
        · rw [hsame]
          exact h.buffer
      rcases FrameDecoder.nextFrame_cases r.decoder with
        ⟨-, hnext, -⟩ | ⟨-, e, hnext⟩ | ⟨-, body, rest, hbody, hbuf, hnext⟩
      · rw [hstep _ _ hnext]
        exact hkept _ rfl
      · rw [hstep _ _ hnext]
        exact hkept _ rfl
      · rw [hstep _ _ hnext]
        have hmore : frames ⟨{ r.decoder with buf := rest }, r.pushed,
            r.results ++ [.ok (some body)]⟩ = r.frames ++ [body] := by
          simp [frames, frameOf]
        refine ⟨h.limit, ?_, ?_⟩
        · rw [hmore]
          intro f hf
          rcases List.mem_append.mp hf with hf | hf
          · exact h.announced f hf
          · rw [List.mem_singleton.mp hf]
            exact hbody
        · rw [hmore, ← h.buffer, hbuf]
          simp

theorem pushed_prefix_step (r : FrameRun) (op : FrameOp) : r.pushed <+: (r.step op).pushed := by
  cases op with
  | push bytes => exact List.prefix_append _ _
  | nextFrame => exact List.prefix_refl _

section Stream

variable {maxFrame : ℕ} {bodies : List Bytes}
  (hbodies : ∀ body ∈ bodies, Announced body ∧ body.length ≤ maxFrame)

include hbodies

/-- What has been read of a stream of frames, and what is still to come. -/
theorem Sound.split {r : FrameRun} (h : Sound maxFrame r) (hpushed : r.pushed <+: wire bodies) :
    ∃ todo, bodies = r.frames ++ todo ∧ r.decoder.buf <+: wire todo ∧
      (r.pushed = wire bodies → r.decoder.buf = wire todo) := by
  rw [← h.buffer] at hpushed ⊢
  obtain ⟨todo, rfl⟩ := prefix_of_wire h.announced (fun b hb => (hbodies b hb).1) hpushed
  rw [wire_append] at hpushed ⊢
  refine ⟨todo, rfl, ?_, ?_⟩
  · exact (List.prefix_append_right_inj _).mp hpushed
  · exact fun heq => List.append_cancel_left heq

theorem Sound.nextFrame_ok {r : FrameRun} (h : Sound maxFrame r)
    (hpushed : r.pushed <+: wire bodies) :
    ∃ found, (FrameDecoder.nextFrame r.decoder).1 = .ok found := by
  obtain ⟨todo, hsplit, hbuf, -⟩ := h.split hbodies hpushed
  have htakes : ¬r.decoder.Refuses := by
    apply FrameDecoder.not_refuses_of_prefix _ hbuf
    intro body hbody
    rw [h.limit]
    exact hbodies body (by simp [hsplit, hbody])
  rcases FrameDecoder.nextFrame_cases r.decoder with
    ⟨-, hnext, -⟩ | ⟨hrefuses, -⟩ | ⟨-, body, rest, -, -, hnext⟩
  · exact ⟨none, by rw [hnext]⟩
  · exact absurd hrefuses htakes
  · exact ⟨some body, by rw [hnext]⟩

/-- With every byte pushed, the next call returns the next body. -/
theorem Sound.nextFrame_eq {r : FrameRun} (h : Sound maxFrame r) (hpushed : r.pushed = wire bodies) :
    (FrameDecoder.nextFrame r.decoder).1 = .ok bodies[r.frames.length]? := by
  obtain ⟨todo, hsplit, -, hbuf⟩ := h.split hbodies (hpushed ▸ List.prefix_refl _)
  have hbuf := hbuf hpushed
  have hnext : bodies[r.frames.length]? = todo.head? := by
    rw [hsplit, List.getElem?_append_right (le_refl _), Nat.sub_self, List.head?_eq_getElem?]
  rw [hnext]
  cases todo with
  | nil =>
      rw [FrameDecoder.nextFrame, bind_of_ok (get_apply _), hbuf]
      rfl
  | cons body todo =>
      obtain ⟨hannounced, hmax⟩ := hbodies body (by simp [hsplit])
      rw [FrameDecoder.nextFrame_framed hannounced (h.limit ▸ hmax) hbuf]
      rfl

end Stream

/-- However a stream is cut and however pushes and reads alternate, the decoder holds
what it was given and has not returned. Of a stream of frames it returns the bodies in
order, and all of them once it has all the bytes; of any stream it refuses exactly a
prefix that is negative or above the limit, and keeps the bytes. -/
theorem framing_uncut (maxFrame : ℕ) (ops : List FrameOp) :
    let r := run FrameRun.step (.start maxFrame) ops
    (∃ frames, r.frames.mapM frame = .ok frames ∧ frames.flatten ++ r.decoder.buf = r.pushed) ∧
    (∀ bodies frames, bodies.mapM frame = .ok frames → (∀ body ∈ bodies, body.length ≤ maxFrame) →
      r.pushed <+: frames.flatten →
        r.frames <+: bodies ∧ (∀ result ∈ r.results, ∃ found, result = .ok found) ∧
        (r.pushed = frames.flatten →
          (FrameDecoder.nextFrame r.decoder).1 = .ok bodies[r.frames.length]? ∧
          ((FrameDecoder.nextFrame r.decoder).1 = .ok none → r.frames = bodies))) ∧
    ((∃ e, (FrameDecoder.nextFrame r.decoder).1 = .error e) ↔
      ∃ len, i32At r.decoder.buf 0 = some len ∧ (len < 0 ∨ (maxFrame : ℤ) < len)) ∧
    ∀ e, (FrameDecoder.nextFrame r.decoder).1 = .error e →
      (FrameDecoder.nextFrame r.decoder).2 = r.decoder := by
  have hrun : ∀ pre, Sound maxFrame (run FrameRun.step (.start maxFrame) pre) := fun pre =>
    run_induction (sound_start maxFrame) (fun _ op h => h.step op) pre
  have hsound := hrun ops
  have hflatten : ∀ l : List Bytes, (l.map framed).flatten = wire l := fun l => rfl
  intro r
  refine ⟨?_, ?_, ?_, ?_⟩
  · refine ⟨_, mapM_frame_eq_ok_iff.mpr ⟨hsound.announced, rfl⟩, ?_⟩
    rw [hflatten]
    exact hsound.buffer
  · rintro bodies frames hframes hmax hpushed
    obtain ⟨hannounced, rfl⟩ := mapM_frame_eq_ok_iff.mp hframes
    have hbodies : ∀ body ∈ bodies, Announced body ∧ body.length ≤ maxFrame :=
      fun body hbody => ⟨hannounced body hbody, hmax body hbody⟩
    rw [hflatten] at hpushed ⊢
    have hpre : r.frames <+: bodies := by
      obtain ⟨todo, hsplit, -⟩ := hsound.split hbodies hpushed
      exact ⟨todo, hsplit.symm⟩
    refine ⟨hpre, ?_, fun hall => ⟨hsound.nextFrame_eq hbodies hall, fun hdrained => ?_⟩⟩
    · -- What was pushed at any earlier moment is a part of the same stream.
      refine run_induction_of_prefix (s := FrameRun.start maxFrame)
        (I := fun _ r => r.pushed <+: wire bodies → ∀ result ∈ r.results, ∃ found, result = .ok found)
        ?_ ops ?_ hpushed
      · intro _ result hresult
        simp [start] at hresult
      · intro pre op _ ih hlater
        have hbefore := (pushed_prefix_step _ op).trans hlater
        cases op with
        | push bytes => exact ih hbefore
        | nextFrame =>
            intro result hresult
            rcases List.mem_append.mp hresult with hresult | hresult
            · exact ih hbefore result hresult
            · obtain ⟨found, hfound⟩ := (hrun pre).nextFrame_ok hbodies hbefore
              exact ⟨found, (List.mem_singleton.mp hresult).trans hfound⟩
    · rw [hsound.nextFrame_eq hbodies hall, Except.ok.injEq, List.getElem?_eq_none_iff] at hdrained
      exact hpre.eq_of_length_le hdrained
  · have hlimit : r.decoder.maxFrame = maxFrame := hsound.limit
    rw [← hlimit]
    change _ ↔ r.decoder.Refuses
    rcases FrameDecoder.nextFrame_cases r.decoder with
      ⟨htakes, hnext, -⟩ | ⟨hrefuses, e, hnext⟩ | ⟨htakes, body, rest, -, -, hnext⟩
    · simp [hnext, htakes]
    · simp [hnext, hrefuses]
    · simp [hnext, htakes]
  · intro e he
    rcases FrameDecoder.nextFrame_cases r.decoder with
      ⟨-, hnext, -⟩ | ⟨-, e', hnext⟩ | ⟨-, body, rest, -, -, hnext⟩
    · rw [hnext] at he
      cases he
    · rw [hnext]
    · rw [hnext] at he
      cases he

/-- Two frames, the first of them empty, cut inside the second prefix. -/
theorem framing_uncut_split :
    (run FrameRun.step (.start 8) [.push [0, 0, 0, 0, 0], .nextFrame, .nextFrame,
      .push [0, 0, 2, 7, 9], .nextFrame]).frames <+: [[], [7, 9]] :=
  ((framing_uncut 8 [.push [0, 0, 0, 0, 0], .nextFrame, .nextFrame, .push [0, 0, 2, 7, 9],
    .nextFrame]).2.1 [[], [7, 9]] [[0, 0, 0, 0], [0, 0, 0, 2, 7, 9]] rfl (by decide)
      (by decide)).1

end FrameRun

end Barnabas.Core
