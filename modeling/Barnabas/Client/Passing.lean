import Barnabas.Client.ConsumerRules
import Barnabas.Core.Accessors
import Barnabas.Core.Arithmetic
import Barnabas.Core.Passing

/-!
What the positions of a consumer move past.

The result loop of `poll` (`barnabas-client/src/consumer.rs`) moves the position of a
partition as soon as it has read its data, and drops what it has gathered at the first
answer it cannot use. A row that is behind a position is accounted for if a poll has
returned it, or there was a reason to leave it out.
-/

namespace Barnabas.Client

open Barnabas.Lib Barnabas.Core Barnabas.Lib.Act

/-- What is returned of a partition, row by row. -/
def ConsumerRecords.rows (records : ConsumerRecords) : List Row :=
  records.batches.flatMap LeanBatch.rows ++ records.fallback.map Record.row

namespace Consumer

variable {ω : Type} (T : Transport ω) (D : Decoders)

/-! ### One partition's data -/

/-- The rows of a partition's data, as the reader that takes them makes them. -/
def heldRows (bytes : Bytes) : List Row :=
  match decodeLean D.toCodecs bytes with
  | .error _ => []
  | .ok (some batches) => batches.flatMap LeanBatch.rows
  | .ok none =>
      match decodeRecords D bytes.length bytes with
      | .error _ => []
      | .ok records => records.map Record.row

/-- The offsets of the full decoder are values of their type. -/
def Typed : Prop :=
  ∀ bytes records rest, D.recordBatchDecoder bytes = .ok (records, rest) →
    ∀ r ∈ records, Fits 64 r.offset

/-- The data are a stretch of a log: offsets increase, and no batch has the beginning of
an aborted transaction inside or, under READ_COMMITTED, the LSO. -/
structure OfLog (isolation : IsolationLevel) (part : PartitionData) (bytes : Bytes) : Prop where
  increasing : (heldRows D bytes).Pairwise fun a b => a.offset < b.offset
  begins : ∀ batches, decodeLean D.toCodecs bytes = .ok (some batches) →
    ∀ a ∈ abortedOf part, ∀ b ∈ batches, ¬b.Inside a.firstOffset
  stable : ∀ batches, decodeLean D.toCodecs bytes = .ok (some batches) →
    ¬(isolation = .readCommitted ∧ Straddled batches part.lastStableOffset)

variable {D}

theorem decodeRecords_typed (hD : Typed D) {fuel : ℕ} {bytes : Bytes} {records : List Record}
    (h : decodeRecords D fuel bytes = .ok records) : ∀ r ∈ records, Fits 64 r.offset := by
  induction fuel generalizing bytes records with
  | zero =>
      cases h
      exact List.forall_mem_nil _
  | succ fuel ih =>
      rw [decodeRecords] at h
      cases hlength : i32At bytes 8 with
      | none =>
          rw [hlength] at h
          cases h
          exact List.forall_mem_nil _
      | some batchLength =>
          rw [hlength] at h
          dsimp only at h
          split at h
          · cases h
          · split at h
            · cases h
              exact List.forall_mem_nil _
            · rcases htaken : D.recordBatchDecoder bytes with e | ⟨first, rest⟩
              · rw [htaken] at h
                cases h
              · rw [htaken] at h
                dsimp only at h
                rcases hrest : decodeRecords D fuel rest with e | more
                · rw [hrest] at h
                  cases h
                · rw [hrest] at h
                  cases h
                  exact List.forall_mem_append.mpr ⟨hD bytes first rest htaken, ih hrest⟩

/-- What reading the data moves the position past was gathered, or left out for a
reason. -/
theorem readPartition_passes (hD : Typed D) {isolation : IsolationLevel} {fetchOffset : ℤ}
    {tp : TopicPartition} {part : PartitionData} {bytes : Bytes} (hlog : OfLog D isolation part bytes)
    {records : ConsumerRecords} {nextOffset : ℤ}
    (hread : readPartition D isolation fetchOffset tp part bytes = .ok (records, nextOffset)) :
    records.topic = tp.topic ∧ records.partition = tp.partition ∧
      ∀ row ∈ heldRows D bytes, row.offset < nextOffset → row ∈ records.rows ∨
        LeftOut isolation fetchOffset (heldRows D bytes) (abortedOf part) row := by
  have hincreasing := hlog.increasing
  rw [readPartition] at hread
  rcases hdecode : decodeLean D.toCodecs bytes with e | _ | batches
  · rw [hdecode] at hread
    cases hread
  · rw [hdecode] at hread
    dsimp only at hread
    rcases hrecords : decodeRecords D bytes.length bytes with e | all
    · rw [hrecords] at hread
      cases hread
    · have hheld : heldRows D bytes = all.map Record.row := by
        rw [heldRows, hdecode]
        dsimp only
        rw [hrecords]
      rw [hrecords] at hread
      cases hread
      refine ⟨rfl, rfl, fun row hrow hlt => ?_⟩
      rw [hheld] at hrow hincreasing ⊢
      obtain ⟨r, hr, rfl⟩ := List.mem_map.mp hrow
      have hordered : all.Pairwise fun r r' => r.offset < r'.offset := by
        rwa [List.pairwise_map] at hincreasing
      rcases filter_passes hordered (decodeRecords_typed hD hrecords) hr hlt with hkept | hreason
      · exact .inl (List.mem_append_right _ (List.mem_map_of_mem hkept))
      · exact .inr hreason
  · have hheld : heldRows D bytes = batches.flatMap LeanBatch.rows := by
      rw [heldRows, hdecode]
    rw [hdecode] at hread
    cases hread
    refine ⟨rfl, rfl, fun row hrow hlt => ?_⟩
    rw [hheld] at hrow hincreasing ⊢
    rcases filterBatches_passes (ordered_iff_rows.mpr hincreasing) ( fits_of_decodeLean hdecode)
      (hlog.begins batches hdecode) (hlog.stable batches hdecode) hrow hlt with hkept | hreason
    · exact .inl (List.mem_append_left _ hkept)
    · exact .inr hreason

/-! ### The result loop -/

variable (D)

/-- What a reading has gathered, if anything. -/
def gathered (reading : Reading) : Option ConsumerRecords :=
  match readPartition D reading.isolation reading.fetchOffset reading.tp reading.part reading.bytes with
  | .error _ => none
  | .ok (records, _) => if records.batches = [] ∧ records.fallback = [] then none else some records

/-- An entry of the answers: the data of a partition, or what ends the loop. -/
abbrev FetchEntry := Except Error (TopicPartition × PartitionData)

def entryOf (e : TopicPartition × PartitionData) : FetchEntry :=
  (check "Fetch partition" e.2.errorCode).map fun _ => e

def entriesOf : Answered → List FetchEntry
  | (_, .error e) => [.error e]
  | (_, .ok resp) =>
      if resp.errorCode = fetchSessionIdNotFound ∨ resp.errorCode = invalidFetchSessionEpoch then []
      else match check "Fetch" resp.errorCode with
        | .error e => [.error e]
        | .ok () => (dataOf resp).map entryOf

/-- What there is to read for an entry. -/
def readEntry (isolation : IsolationLevel) (positions : PartitionMap ℤ) (tp : TopicPartition)
    (part : PartitionData) : Except Error (Option Reading) :=
  match positions[tp]?, part.records with
  | some fetchOffset, some bytes =>
      if bytes = [] then .ok none
      else (readPartition D isolation fetchOffset tp part bytes).map fun read =>
        some ⟨tp, isolation, fetchOffset, part, bytes, read.2⟩
  | _, _ => .ok none

/-- What there is to read in the entries from these positions on, up to the first that
cannot be used, and why that cannot. -/
def survey (isolation : IsolationLevel) :
    List FetchEntry → PartitionMap ℤ → List Reading × Option Error
  | [], _ => ([], none)
  | .error e :: _, _ => ([], some e)
  | .ok (tp, part) :: rest, positions =>
      match readEntry D isolation positions tp part with
      | .error e => ([], some e)
      | .ok none => survey isolation rest positions
      | .ok (some r) =>
          let later := survey isolation rest (positions.insert r.tp r.nextOffset)
          (r :: later.1, later.2)

/-- What the loop returns after such a survey. -/
def loopOutcome (surveyed : List Reading × Option Error) (out : List ConsumerRecords) :
    Except Error (List ConsumerRecords) :=
  match surveyed.2 with
  | some e => .error e
  | none => .ok (out ++ surveyed.1.filterMap (gathered D))

/-- The positions after these readings. -/
def walk (readings : List Reading) (positions : PartitionMap ℤ) : PartitionMap ℤ :=
  readings.foldl (fun positions r => positions.insert r.tp r.nextOffset) positions

/-- Each reading starts at the position of its partition. -/
def Chained : List Reading → PartitionMap ℤ → Prop
  | [], _ => True
  | r :: rest, positions =>
      positions[r.tp]? = some r.fetchOffset ∧ Chained rest (positions.insert r.tp r.nextOffset)

/-- The consumer after these readings. -/
def advanced (readings : List Reading) (c : Consumer ω) : Consumer ω :=
  { c with positions := walk readings c.positions, readings := c.readings ++ readings }

@[simp] theorem advanced_nil (c : Consumer ω) : advanced [] c = c := by
  simp [advanced, walk]

theorem advanced_cons (r : Reading) (readings : List Reading) (c : Consumer ω) :
    advanced (r :: readings) c = advanced readings (moveAlong r c) := by
  simp [advanced, walk, moveAlong, setPosition]

variable {D}

/-- What is read for an entry starts at the position, and is in the answer. -/
theorem readEntry_eq_some {isolation : IsolationLevel} {positions : PartitionMap ℤ}
    {tp : TopicPartition} {part : PartitionData} {r : Reading}
    (h : readEntry D isolation positions tp part = .ok (some r)) :
    positions[tp]? = some r.fetchOffset ∧ r.tp = tp ∧ r.part = part ∧ r.isolation = isolation ∧
      part.records = some r.bytes ∧ ∃ records, readPartition D r.isolation r.fetchOffset r.tp r.part
        r.bytes = .ok (records, r.nextOffset) := by
  rw [readEntry] at h
  rcases hposition : positions[tp]? with _ | fetchOffset
  · rw [hposition] at h
    cases h
  · rcases hrecords : part.records with _ | bytes
    · rw [hposition, hrecords] at h
      cases h
    · rw [hposition, hrecords] at h
      dsimp only at h
      split at h
      · cases h
      · rcases hread : readPartition D isolation fetchOffset tp part bytes with e | ⟨records, next⟩
        · rw [hread] at h
          cases h
        · rw [hread] at h
          cases h
          exact ⟨rfl, rfl, rfl, rfl, rfl, records, hread⟩

theorem gathered_of_read {r : Reading} {records : ConsumerRecords}
    (hread : readPartition D r.isolation r.fetchOffset r.tp r.part r.bytes =
      .ok (records, r.nextOffset)) :
    gathered D r = if records.batches = [] ∧ records.fallback = [] then none else some records := by
  rw [gathered, hread]

/-- One entry in the loop. -/
theorem absorbPartition_eq (tp : TopicPartition) {part : PartitionData}
    (hcheck : check "Fetch partition" part.errorCode = .ok ()) (out : List ConsumerRecords)
    (c : Consumer ω) :
    absorbPartition D tp part out c = match readEntry D c.isolation c.positions tp part with
      | .error e => (.error e, c)
      | .ok none => (.ok out, c)
      | .ok (some r) => (.ok (out ++ (gathered D r).toList), moveAlong r c) := by
  rw [absorbPartition, hcheck, bind_of_ok (ofExcept_apply _ c), bind_of_ok (get_apply c), readEntry]
  rcases hposition : c.positions[tp]? with _ | fetchOffset
  · rfl
  · rcases hrecords : part.records with _ | bytes
    · rfl
    · dsimp only
      split
      · rfl
      · rcases hread : readPartition D c.isolation fetchOffset tp part bytes with e | ⟨records, next⟩
        · rfl
        · have hgathered : gathered D ⟨tp, c.isolation, fetchOffset, part, bytes, next⟩ =
              if records.batches = [] ∧ records.fallback = [] then none else some records :=
            gathered_of_read hread
          change _ = (Except.ok (out ++ (gathered D ⟨tp, c.isolation, fetchOffset, part, bytes,
            next⟩).toList), _)
          rw [hgathered]
          split
          · next hnone =>
              rw [Option.toList_none, List.append_nil]
              exact congrArg (fun o => (Except.ok o, _)) (if_pos hnone)
          · next hsome =>
              rw [Option.toList_some]
              exact congrArg (fun o => (Except.ok o, _)) (if_neg hsome)

theorem loopOutcome_cons (r : Reading) (later : List Reading × Option Error)
    (out : List ConsumerRecords) :
    loopOutcome D later (out ++ (gathered D r).toList) = loopOutcome D (r :: later.1, later.2) out := by
  rw [loopOutcome, loopOutcome]
  cases later.2 with
  | some e => rfl
  | none =>
      dsimp only
      rw [List.filterMap_cons]
      cases gathered D r <;> simp

theorem absorbPartitions_eq (parts : List (TopicPartition × PartitionData))
    (out : List ConsumerRecords) (c : Consumer ω) :
    absorbPartitions D parts out c =
      (loopOutcome D (survey D c.isolation (parts.map entryOf) c.positions) out,
        advanced (survey D c.isolation (parts.map entryOf) c.positions).1 c) := by
  induction parts generalizing out c with
  | nil =>
      rw [absorbPartitions, List.map_nil, survey, advanced_nil, loopOutcome, List.filterMap_nil,
        List.append_nil]
      rfl
  | cons e rest ih =>
      obtain ⟨tp, part⟩ := e
      rw [absorbPartitions, List.map_cons, entryOf]
      rcases hcheck : check "Fetch partition" part.errorCode with err | _
      · have hrefused : absorbPartition D tp part out c = (.error err, c) := by
          rw [absorbPartition, hcheck]
          rfl
        rw [bind_of_error hrefused]
        simp [Except.map, survey, loopOutcome]
      · have hone := absorbPartition_eq (D := D) tp hcheck out c
        simp only [Except.map, survey]
        rcases hread : readEntry D c.isolation c.positions tp part with err | _ | r
        · rw [hread] at hone
          rw [bind_of_error hone]
          simp [loopOutcome]
        · rw [hread] at hone
          rw [bind_of_ok hone]
          exact ih out c
        · rw [hread] at hone
          rw [bind_of_ok hone, ih]
          dsimp only
          rw [advanced_cons, ← loopOutcome_cons]
          rfl

/-- A survey of more entries goes on from where the first readings lead. -/
theorem survey_append (isolation : IsolationLevel) (entries more : List FetchEntry)
    (positions : PartitionMap ℤ) :
    survey D isolation (entries ++ more) positions =
      match survey D isolation entries positions with
      | (readings, some e) => (readings, some e)
      | (readings, none) =>
          (readings ++ (survey D isolation more (walk readings positions)).1,
            (survey D isolation more (walk readings positions)).2) := by
  induction entries generalizing positions with
  | nil => rfl
  | cons entry rest ih =>
      rw [List.cons_append]
      rcases entry with e | ⟨tp, part⟩
      · rfl
      · rw [survey, survey]
        rcases readEntry D isolation positions tp part with e | _ | r
        · rfl
        · exact ih positions
        · dsimp only
          rw [ih]
          rcases survey D isolation rest (positions.insert r.tp r.nextOffset) with ⟨readings, _ | e⟩
          · rfl
          · rfl

theorem loopOutcome_append (first later : List Reading) (failure : Option Error)
    (out : List ConsumerRecords) :
    loopOutcome D (later, failure) (out ++ first.filterMap (gathered D)) =
      loopOutcome D (first ++ later, failure) out := by
  rw [loopOutcome, loopOutcome]
  cases failure with
  | some e => rfl
  | none => exact congrArg Except.ok (by rw [List.append_assoc, ← List.filterMap_append])

/-- One answer in the loop. -/
theorem absorbAnswer_eq (answer : Answered) (out : List ConsumerRecords) (c : Consumer ω) :
    ∃ sessions, absorbAnswer D answer out c =
      (loopOutcome D (survey D c.isolation (entriesOf answer) c.positions) out,
        { advanced (survey D c.isolation (entriesOf answer) c.positions).1 c with sessions }) := by
  obtain ⟨⟨addr, partitions⟩, e | resp⟩ := answer
  · refine ⟨c.sessions, ?_⟩
    rw [absorbAnswer, bind_of_error (ofExcept_apply _ c), entriesOf, survey, advanced_nil]
    rfl
  · rw [absorbAnswer, bind_of_ok (ofExcept_apply _ c), entriesOf]
    by_cases hforgot : resp.errorCode = fetchSessionIdNotFound ∨
        resp.errorCode = invalidFetchSessionEpoch
    · rw [if_pos hforgot, if_pos hforgot, survey, advanced_nil]
      refine ⟨c.sessions.insert addr .reset, ?_⟩
      rw [loopOutcome, List.filterMap_nil, List.append_nil]
      rfl
    · rw [if_neg hforgot, if_neg hforgot]
      rcases hcheck : check "Fetch" resp.errorCode with e | _
      · rw [bind_of_error (ofExcept_apply _ c), survey, advanced_nil]
        exact ⟨c.sessions, rfl⟩
      · rw [bind_of_ok (ofExcept_apply _ c), bind_of_ok (modify_apply _ c), absorbPartitions_eq,
          acceptSession]
        split
        · exact ⟨_, rfl⟩
        · exact ⟨c.sessions, rfl⟩

/-- The result loop makes the readings of the survey; it returns what they have gathered, or
the failure that ends them. -/
theorem absorb_eq (answers : List Answered) (out : List ConsumerRecords) (c : Consumer ω) :
    ∃ sessions, absorb D answers out c =
      (loopOutcome D (survey D c.isolation (answers.flatMap entriesOf) c.positions) out,
        { advanced (survey D c.isolation (answers.flatMap entriesOf) c.positions).1 c with
          sessions }) := by
  induction answers generalizing out c with
  | nil =>
      refine ⟨c.sessions, ?_⟩
      rw [absorb, List.flatMap_nil, survey, advanced_nil, loopOutcome, List.filterMap_nil,
        List.append_nil]
      rfl
  | cons answer rest ih =>
      obtain ⟨sessions, hfirst⟩ := absorbAnswer_eq (D := D) answer out c
      rw [absorb, List.flatMap_cons, survey_append]
      rcases hsurvey : survey D c.isolation (entriesOf answer) c.positions with ⟨readings, _ | e⟩
      · rw [hsurvey] at hfirst
        obtain ⟨sessions', hrest⟩ := ih (out ++ readings.filterMap (gathered D))
          { advanced readings c with sessions }
        refine ⟨sessions', ?_⟩
        rw [bind_of_ok hfirst, hrest]
        dsimp only
        rw [← loopOutcome_append]
        refine Prod.ext rfl ?_
        simp [advanced, walk, List.foldl_append]
      · rw [hsurvey] at hfirst
        exact ⟨sessions, bind_of_error hfirst⟩

/-! ### What a survey holds -/

/-- What is read is read in full, and from the entries. -/
theorem survey_reads {isolation : IsolationLevel} {entries : List FetchEntry}
    {positions : PartitionMap ℤ} {r : Reading} (h : r ∈ (survey D isolation entries positions).1) :
    r.isolation = isolation ∧ .ok (r.tp, r.part) ∈ entries ∧ r.part.records = some r.bytes ∧
      ∃ records, readPartition D r.isolation r.fetchOffset r.tp r.part r.bytes =
        .ok (records, r.nextOffset) := by
  induction entries generalizing positions with
  | nil => cases h
  | cons entry rest ih =>
      rcases entry with e | ⟨tp, part⟩
      · cases h
      · rw [survey] at h
        rcases hread : readEntry D isolation positions tp part with e | _ | first
        · rw [hread] at h
          cases h
        · rw [hread] at h
          obtain ⟨hisolation, hmem, hrest⟩ := ih h
          exact ⟨hisolation, List.mem_cons_of_mem _ hmem, hrest⟩
        · rw [hread] at h
          rcases List.mem_cons.mp h with rfl | h
          · obtain ⟨-, rfl, rfl, hisolation, hbytes, hreads⟩ := readEntry_eq_some hread
            exact ⟨hisolation, List.mem_cons_self, hbytes, hreads⟩
          · obtain ⟨hisolation, hmem, hrest⟩ := ih h
            exact ⟨hisolation, List.mem_cons_of_mem _ hmem, hrest⟩

theorem survey_chained (isolation : IsolationLevel) (entries : List FetchEntry)
    (positions : PartitionMap ℤ) :
    Chained (survey D isolation entries positions).1 positions := by
  induction entries generalizing positions with
  | nil => trivial
  | cons entry rest ih =>
      rcases entry with e | ⟨tp, part⟩
      · trivial
      · rw [survey]
        rcases hread : readEntry D isolation positions tp part with e | _ | first
        · trivial
        · exact ih positions
        · obtain ⟨hposition, rfl, -⟩ := readEntry_eq_some hread
          exact ⟨hposition, ih _⟩

/-! ### What a poll does to the takings -/

/-- What was read, and what was returned. -/
def takings (c : Consumer ω) : List Reading × List ConsumerRecords := (c.readings, c.returned)

/-- The takings, with what the result loop starts from. -/
def ground (c : Consumer ω) :
    PartitionMap ℤ × IsolationLevel × List Reading × List ConsumerRecords :=
  (c.positions, c.isolation, c.readings, c.returned)

theorem permits_ground : Permits T Cluster.Anyhow (fun _ => True) (Keeps (@ground ω)) := by
  apply permits_aside
  intro c c' hpositions _ hisolation hreadings hreturned
  rw [Keeps, ground, ground, hpositions, hisolation, hreadings, hreturned]

theorem manages_takings : Manages T Cluster.Anyhow (Keeps (@takings ω)) where
  toAttends := (permits_aside T fun c c' _ _ _ hreadings hreturned => by
    rw [Keeps, takings, takings, hreadings, hreturned]).toAttends
  within c c' _ _ hreadings hreturned := by
    rw [Keeps, takings, takings, hreadings, hreturned]

theorem takings_of_ground {c c' : Consumer ω} (h : Keeps ground c c') : Keeps takings c c' :=
  congrArg Prod.snd (congrArg Prod.snd h)

/-- What a poll does before it goes through the answers. -/
def ask : Act (Consumer ω) Error (List Answered) := do
  keepMembership T
  let c ← get
  if c.fetchable = [] then pure [] else collect T

theorem ground_sends (c : Consumer ω) (byBroker : Std.TreeMap String (List TopicPartition)) :
    Keeps ground c (sendFetches T (c.planned byBroker) [] c).2 :=
  (permits_ground T).sendFetches (fun _ _ _ => trivial) [] c

/-- Asking moves no position once the membership is settled. -/
theorem ground_ask (c : Consumer ω) : Keeps ground (keepMembership T c).2 (ask T c).2 := by
  rw [ask]
  rcases hkept : keepMembership T c with ⟨e | _, c₁⟩
  · rw [bind_of_error hkept]
    exact refl_of (Keeps ground) c₁
  · rw [bind_of_ok hkept, bind_of_ok (get_apply c₁)]
    exact Moves.ite (Moves.pure _) ((permits_ground T).collect (ground_sends T)) c₁

theorem takings_ask (c : Consumer ω) : Keeps takings c (ask T c).2 := by
  have hkept : Keeps takings c (keepMembership T c).2 := (manages_takings T).keepMembership c
  exact trans_of (Keeps takings) hkept (takings_of_ground (ground_ask T c))

/-- A poll asks, goes through the answers and returns what they brought. -/
theorem poll_eq : poll T D = (do
    let answers ← ask T
    let out ← absorb D answers []
    startPrefetch T
    handOver out) := by
  funext c
  rw [poll]
  rcases hkept : keepMembership T c with ⟨e | _, c₁⟩
  · rw [bind_of_error hkept]
    refine (bind_of_error ?_).symm
    rw [ask, bind_of_error hkept]
  · rw [bind_of_ok hkept, bind_of_ok (get_apply c₁)]
    by_cases hnone : c₁.fetchable = []
    · have hask : ask T c = (.ok [], c₁) := by
        rw [ask, bind_of_ok hkept, bind_of_ok (get_apply c₁), if_pos hnone]
        rfl
      have hidle : startPrefetch T c₁ = (.ok (), c₁) := by
        rw [startPrefetch, bind_of_ok (get_apply c₁), if_neg fun h => h.2 hnone]
        rfl
      have hnothing : (handOver [] : Act (Consumer ω) Error _) c₁ = (.ok [], c₁) := by
        rw [handOver, bind_of_ok (modify_apply _ c₁), List.append_nil]
        rfl
      have habsorbed : (absorb D [] [] : Act (Consumer ω) Error _) c₁ = (.ok [], c₁) := rfl
      rw [if_pos hnone, bind_of_ok hask, bind_of_ok habsorbed, bind_of_ok hidle, hnothing]
      rfl
    · have hask : ask T c = collect T c₁ := by
        rw [ask, bind_of_ok hkept, bind_of_ok (get_apply c₁), if_neg hnone]
      rw [if_neg hnone, bind_apply, bind_apply, hask]

variable (D)

/-- The survey of the answers a poll has got. -/
def surveyOf (answers : List Answered) (c : Consumer ω) : List Reading × Option Error :=
  survey D c.isolation (answers.flatMap entriesOf) c.positions

/-- A poll makes the readings of its survey, and returns what they have gathered unless an
entry ends it. -/
theorem poll_surveyed {c c' : Consumer ω} {answers : List Answered}
    (hask : ask T c = (.ok answers, c')) :
    (poll T D c).1 = loopOutcome D (surveyOf D answers c') [] ∧
      (poll T D c).2.positions = walk (surveyOf D answers c').1 c'.positions ∧
      (poll T D c).2.readings = c'.readings ++ (surveyOf D answers c').1 ∧
      (poll T D c).2.returned = c'.returned ++ match (surveyOf D answers c').2 with
        | some _ => []
        | none => (surveyOf D answers c').1.filterMap (gathered D) := by
  obtain ⟨sessions, habsorb⟩ := absorb_eq (D := D) answers [] c'
  rw [poll_eq, bind_of_ok hask]
  change absorb D answers [] c' = (loopOutcome D (surveyOf D answers c') [],
    { advanced (surveyOf D answers c').1 c' with sessions }) at habsorb
  rcases hfailure : (surveyOf D answers c').2 with _ | e
  · have hout : loopOutcome D (surveyOf D answers c') [] =
        .ok ((surveyOf D answers c').1.filterMap (gathered D)) := by
      rw [loopOutcome, hfailure]
      rfl
    rw [hout] at habsorb ⊢
    let c₁ : Consumer ω := { advanced (surveyOf D answers c').1 c' with sessions }
    have hkept : Keeps ground c₁ (startPrefetch T c₁).2 :=
      (permits_ground T).startPrefetch (ground_sends T) c₁
    have hstarted : startPrefetch T c₁ = (.ok (), (startPrefetch T c₁).2) := by
      rw [startPrefetch, bind_of_ok (get_apply c₁)]
      split
      · rfl
      · rfl
    rw [bind_of_ok habsorb, bind_of_ok hstarted]
    rw [Keeps, ground, ground, Prod.mk.injEq, Prod.mk.injEq, Prod.mk.injEq] at hkept
    obtain ⟨hpositions, -, hreadings, hreturned⟩ := hkept
    refine ⟨rfl, hpositions, hreadings, ?_⟩
    exact congrArg (· ++ _) hreturned
  · have hout : loopOutcome D (surveyOf D answers c') [] = .error e := by
      rw [loopOutcome, hfailure]
    rw [hout] at habsorb ⊢
    rw [bind_of_error habsorb]
    exact ⟨rfl, rfl, rfl, (List.append_nil _).symm⟩

/-! ### What is accounted for -/

/-- A poll has returned the row, as one of this partition. -/
def Given (c : Consumer ω) (tp : TopicPartition) (row : Row) : Prop :=
  ∃ records ∈ c.returned, records.topic = tp.topic ∧ records.partition = tp.partition ∧
    row ∈ records.rows

/-- Every row that a reading moved the position past was returned, or left out for a
reason. -/
def LosesNone (c : Consumer ω) : Prop :=
  ∀ r ∈ c.readings, ∀ row ∈ heldRows D r.bytes, row.offset < r.nextOffset →
    c.Given r.tp row ∨
      LeftOut r.isolation r.fetchOffset (heldRows D r.bytes) (abortedOf r.part) row

/-- What polls have returned is what was gathered by reading. -/
def Tally (c : Consumer ω) : Prop := c.returned = c.readings.filterMap (gathered D)

/-- Every answer can be used, or nothing is gathered in front of the first that cannot. -/
def Spares (answers : List Answered) (c : Consumer ω) : Prop :=
  (surveyOf D answers c).2 = none ∨ (surveyOf D answers c).1.filterMap (gathered D) = []

/-- The data in the answers are of logs. -/
def FromLogs (answers : List Answered) (c : Consumer ω) : Prop :=
  ∀ tp part bytes, .ok (tp, part) ∈ answers.flatMap entriesOf → part.records = some bytes →
    OfLog D c.isolation part bytes

/-- The poll moves positions by reading alone, from where the membership has left them. A
consumer without a group has no membership that would. -/
def MovesByReading (c c' : Consumer ω) : Prop :=
  ∃ readings, c'.readings = c.readings ++ readings ∧
    c'.positions = walk readings (keepMembership T c).2.positions ∧
    Chained readings (keepMembership T c).2.positions ∧
    (c.group = none → (keepMembership T c).2.positions = c.positions)

variable {D}

/-- A poll returns all it has gathered if and only if its answers spare it. -/
theorem tally_poll_iff {c : Consumer ω} (h : Tally D c) :
    Tally D (poll T D c).2 ↔ ∀ answers c', ask T c = (.ok answers, c') → Spares D answers c' := by
  have htakings := takings_ask T c
  rcases hask : ask T c with ⟨e | answers, c'⟩
  · rw [hask] at htakings
    obtain ⟨hreadings, hreturned⟩ := Prod.mk.inj htakings
    have hpoll : poll T D c = (.error e, c') := by
      rw [poll_eq, bind_of_error hask]
    rw [hpoll, Tally, hreadings, hreturned]
    exact iff_of_true h (by rintro _ _ ⟨⟩)
  · rw [hask] at htakings
    obtain ⟨hreadings, hreturned⟩ := Prod.mk.inj htakings
    obtain ⟨-, -, hread, hgave⟩ := poll_surveyed T D hask
    have hspares : (∀ answers₁ c₁, ((.ok answers, c') : Except Error (List Answered) × Consumer ω) =
        (.ok answers₁, c₁) → Spares D answers₁ c₁) ↔ Spares D answers c' := by
      constructor
      · exact fun hall => hall answers c' rfl
      · rintro hspares _ _ ⟨⟩
        exact hspares
    rw [hspares, Tally, hread, hgave, hreadings, hreturned, List.filterMap_append, ← h, Spares,
      List.append_cancel_left_eq]
    cases (surveyOf D answers c').2 with
    | none => simp
    | some e =>
        dsimp only
        rw [or_iff_right (by simp)]
        exact eq_comm

/-- A consumer that tells what it has gathered accounts for what it has passed. -/
theorem losesNone_of_tally (hD : Typed D) {c : Consumer ω} (htally : Tally D c)
    (hreads : ∀ r ∈ c.readings, OfLog D r.isolation r.part r.bytes ∧ ∃ records,
      readPartition D r.isolation r.fetchOffset r.tp r.part r.bytes = .ok (records, r.nextOffset)) :
    LosesNone D c := by
  intro r hr row hrow hlt
  obtain ⟨hlog, records, hread⟩ := hreads r hr
  obtain ⟨htopic, hpartition, hpasses⟩ := readPartition_passes hD hlog hread
  rcases hpasses row hrow hlt with hkept | hreason
  · refine .inl ⟨records, ?_, htopic, hpartition, hkept⟩
    have hsome : gathered D r = some records := by
      rw [gathered_of_read hread, if_neg]
      rintro ⟨hbatches, hfallback⟩
      rw [ConsumerRecords.rows, hbatches, hfallback] at hkept
      cases hkept
    rw [htally]
    exact List.mem_filterMap.mpr ⟨r, hr, hsome⟩
  · exact .inr hreason

/-- A consumer without a group gets none, and keeps its positions. -/
def Alone (c c' : Consumer ω) : Prop :=
  c.group = none → c'.group = none ∧ c'.positions = c.positions

instance : IsPreorder (Consumer ω) Alone where
  refl _ h := ⟨h, rfl⟩
  trans _ _ _ h h' hnone := ⟨(h' (h hnone).1).1, (h' (h hnone).1).2.trans (h hnone).2⟩

theorem attends_alone : Attends T Cluster.Anyhow (fun _ => True) (@Alone ω) where
  calls := (Cluster.coordinates_anyhow T).toPermits
  coordinates := Cluster.coordinates_anyhow T
  membership _ _ := trivial
  listOffsets _ _ _ := trivial
  cluster c _ _ h := ⟨h, rfl⟩
  discardOutstanding := moves_discardOutstanding T (fun c _ _ h => ⟨h, rfl⟩) fun _ c h => ⟨h, rfl⟩
  group c group _ _ hsome _ hnone := by
    rw [hsome] at hnone
    cases hnone
  books c _ _ h := ⟨h, rfl⟩

theorem keepMembership_alone {c : Consumer ω} (hnone : c.group = none) :
    (keepMembership T c).2.positions = c.positions := by
  obtain ⟨hgroup, hpositions⟩ := (attends_alone T).checkForExpansion c hnone
  rw [keepMembership]
  rcases hchecked : checkForExpansion T c with ⟨e | _, c₁⟩
  · rw [hchecked] at hpositions
    rw [bind_of_error hchecked]
    exact hpositions
  · rw [hchecked] at hgroup hpositions
    have hstill : ¬c₁.group.isSome := by
      rw [show c₁.group = none from hgroup]
      decide
    rw [bind_of_ok hchecked, bind_of_ok (get_apply c₁), if_neg hstill]
    exact hpositions

/-- Every poll moves positions by reading. -/
theorem poll_movesByReading (c : Consumer ω) : MovesByReading T c (poll T D c).2 := by
  have hgroup : c.group = none → (keepMembership T c).2.positions = c.positions :=
    fun hnone => keepMembership_alone T hnone
  have htakings := takings_ask T c
  have hground := ground_ask T c
  rcases hask : ask T c with ⟨e | answers, c'⟩
  · rw [hask] at htakings hground
    have hpoll : poll T D c = (.error e, c') := by
      rw [poll_eq, bind_of_error hask]
    rw [hpoll]
    refine ⟨[], ?_, ?_, trivial, hgroup⟩
    · rw [List.append_nil]
      exact congrArg Prod.fst htakings
    · exact congrArg Prod.fst hground
  · rw [hask] at htakings hground
    obtain ⟨-, hpositions, hread, -⟩ := poll_surveyed T D hask
    have hsame : c'.positions = (keepMembership T c).2.positions := congrArg Prod.fst hground
    refine ⟨(surveyOf D answers c').1, ?_, ?_, ?_, hgroup⟩
    · rw [hread]
      exact congrArg (· ++ _) (congrArg Prod.fst htakings)
    · rw [hpositions, hsame]
    · rw [← hsame]
      exact survey_chained _ _ _

variable (D) in
/-- What the readings of a run have in common. -/
def Truthful (c : Consumer ω) : Prop :=
  Tally D c ∧ ∀ r ∈ c.readings, OfLog D r.isolation r.part r.bytes ∧ ∃ records,
    readPartition D r.isolation r.fetchOffset r.tp r.part r.bytes = .ok (records, r.nextOffset)

theorem truthful_of_takings {c c' : Consumer ω} (h : Keeps takings c c') (htruthful : Truthful D c) :
    Truthful D c' := by
  obtain ⟨hreadings, hreturned⟩ := Prod.mk.inj h
  rw [Truthful, Tally, hreadings, hreturned]
  exact htruthful

/-- A poll whose answers spare it. -/
theorem truthful_poll {c : Consumer ω} (htruthful : Truthful D c)
    (hpoll : ∀ answers c', ask T c = (.ok answers, c') →
      FromLogs D answers c' ∧ Spares D answers c') : Truthful D (poll T D c).2 := by
  refine ⟨(tally_poll_iff T htruthful.1).mpr fun answers c' h => (hpoll answers c' h).2, ?_⟩
  have htakings := takings_ask T c
  rcases hask : ask T c with ⟨e | answers, c'⟩
  · rw [hask] at htakings
    have hfailed : poll T D c = (.error e, c') := by
      rw [poll_eq, bind_of_error hask]
    rw [hfailed]
    exact (truthful_of_takings htakings htruthful).2
  · rw [hask] at htakings
    obtain ⟨-, -, hread, -⟩ := poll_surveyed T D hask
    obtain ⟨hlogs, -⟩ := hpoll answers c' hask
    intro r hr
    rw [hread] at hr
    rcases List.mem_append.mp hr with hr | hr
    · exact (truthful_of_takings htakings htruthful).2 r hr
    · obtain ⟨hisolation, hmem, hbytes, hreads⟩ := survey_reads hr
      refine ⟨?_, hreads⟩
      rw [hisolation]
      exact hlogs r.tp r.part r.bytes hmem hbytes

theorem typed_plainDecoders : Typed plainDecoders := by
  intro bytes records rest h
  cases h

/-- One record at offset 5. -/
def brought : PartitionData := ⟨0, 0, 100, none, some (sampleBatch.bytes plainCodecs)⟩

/-- A consumer that reads two partitions of one broker, the first from offset 5 on. -/
def readsBoth (answer : FetchResponse) : Consumer Tape :=
  let metadata := .metadata ⟨[⟨1, "b", 1⟩], 1, [⟨0, some "t", [⟨0, 0, 1⟩, ⟨0, 1, 1⟩]⟩]⟩
  run (Call.step Tape.transport plainDecoders) (connected [metadata, metadata, .fetch answer])
    [.assign ⟨"t", 0⟩ 5, .assign ⟨"t", 1⟩ 0]

/-- The first partition brings a record, the second is refused. -/
def spoiled : Consumer Tape :=
  readsBoth ⟨0, 7, [("t", [brought, ⟨1, 6, -1, none, none⟩])]⟩

theorem ofLog_brought :
    OfLog plainDecoders .readCommitted brought (sampleBatch.bytes plainCodecs) where
  increasing := by decide +kernel
  begins _ _ a ha := absurd ha List.not_mem_nil
  stable batches hdecode := by
    have hread : decodeLean plainDecoders.toCodecs (sampleBatch.bytes plainCodecs) =
        .ok (some [sampleDecoded]) := by
      decide +kernel
    obtain rfl : [sampleDecoded] = batches :=
      Option.some.inj (Except.ok.inj (hread.symm.trans hdecode))
    decide

/-- Of the second partition there is nothing new. -/
def answeredBoth : FetchResponse := ⟨0, 7, [("t", [brought, ⟨1, 0, 0, none, none⟩])]⟩

/-- The answers are of logs, and nothing ends the poll. -/
theorem spares_answeredBoth {answers : List Answered} {c : Consumer Tape}
    (hask : ask Tape.transport (readsBoth answeredBoth) = (.ok answers, c)) :
    FromLogs plainDecoders answers c ∧ Spares plainDecoders answers c := by
  let answered : Answered := (("b:1", [⟨"t", 0⟩, ⟨"t", 1⟩]), .ok answeredBoth)
  have hanswers : (ask Tape.transport (readsBoth answeredBoth)).1 = .ok [answered] := by
    rfl
  have hisolation : (ask Tape.transport (readsBoth answeredBoth)).2.isolation = .readCommitted := by
    rfl
  have hspares : (surveyOf plainDecoders [answered]
      (ask Tape.transport (readsBoth answeredBoth)).2).2 = none := by
    decide +kernel
  have hentries : [answered].flatMap entriesOf =
      [.ok (⟨"t", 0⟩, brought), .ok (⟨"t", 1⟩, ⟨1, 0, 0, none, none⟩)] := by
    rfl
  rw [hask] at hanswers hisolation hspares
  obtain rfl := Except.ok.inj hanswers
  refine ⟨fun tp part bytes hmem hbytes => ?_, .inl hspares⟩
  rw [hentries] at hmem
  rw [show c.isolation = .readCommitted from hisolation]
  rcases List.mem_cons.mp hmem with hfirst | hsecond
  · obtain ⟨-, rfl⟩ := Prod.mk.inj (Except.ok.inj hfirst)
    obtain rfl := Option.some.inj hbytes
    exact ofLog_brought
  · obtain ⟨-, rfl⟩ := Prod.mk.inj (Except.ok.inj (List.mem_singleton.mp hsecond))
    cases hbytes

end Consumer

end Barnabas.Client
