import Barnabas.Client.ConsumerRules
import Barnabas.Lib.Attempts

/-!
Looking up the offsets of many partitions.

A lookup asks the leaders of its partitions and asks again for those that had none, or
whose leader has moved. What a run of it learnt is kept here as a list of rounds, one
for each attempt: which leader every partition was found to have, and what each leader
was asked and answered. A result of the lookup is then compared with the rounds: no
partition falls out between two attempts, and none is asked about under the timestamp
of another.
-/

namespace Barnabas.Client

open Barnabas.Lib Barnabas.Core Barnabas.Lib.Act

/-- A `ListOffsets` that was answered: by whom, what it asked, and the answer. -/
structure Inquiry where
  addr : String
  asked : List (TopicPartition × ℤ)
  answer : List (TopicPartition × ListOffsetsPartitionResponse)

/-- The answer is about the partitions of the request. It may name one twice. -/
def Inquiry.Complete (x : Inquiry) : Prop :=
  ∀ tp, tp ∈ x.answer.map Prod.fst ↔ tp ∈ x.asked.map Prod.fst

/-- One attempt: the partitions whose leader is known, with its address, and the
requests that were answered. -/
structure LookupRound where
  leaders : List ((TopicPartition × ℤ) × String)
  inquiries : List Inquiry

/-- In one of these rounds the leader of the partition was asked for this timestamp,
and this is what it answered. -/
def LeaderSaid (rounds : List LookupRound) (w : TopicPartition × ℤ)
    (part : ListOffsetsPartitionResponse) : Prop :=
  ∃ round ∈ rounds, ∃ x ∈ round.inquiries,
    (w, x.addr) ∈ round.leaders ∧ w ∈ x.asked ∧ (w.1, part) ∈ x.answer

namespace Consumer

variable {ω : Type} (T : Transport ω)

/-- The partitions of an answer. -/
def answersOf (topics : List (String × List ListOffsetsPartitionResponse)) :
    List (TopicPartition × ListOffsetsPartitionResponse) :=
  topics.flatMap fun (topic, parts) => parts.map fun part => (⟨topic, part.partitionIndex⟩, part)

/-- What `leadersFor` finds, partition by partition. -/
def led : List (TopicPartition × ℤ) → Consumer ω → List ((TopicPartition × ℤ) × String)
  | [], _ => []
  | (tp, timestamp) :: rest, c =>
      match (onCluster (Cluster.leaderAddr T tp) : Act (Consumer ω) Error String) c with
      | (.ok addr, c) => ((tp, timestamp), addr) :: led rest c
      | (.error (.noLeader _ _), c) => led rest c
      | (.error _, _) => []

/-- The requests of `askLeaders` that are answered. -/
def inquiries : List (String × List (TopicPartition × ℤ)) → Lookup → Consumer ω → List Inquiry
  | [], _, _ => []
  | (addr, asked) :: rest, lookup, c =>
      match onCluster (Cluster.callAt T Body.asListOffsets addr 7
          (.listOffsets ⟨-1, c.isolation.asI8, Producer.byTopic asked⟩)) c with
      | (.error _, _) => []
      | (.ok topics, c) =>
          ⟨addr, asked, answersOf topics⟩ ::
            match readOffsets asked (answersOf topics) lookup c with
            | (.error _, _) => []
            | (.ok lookup, c) => inquiries rest lookup c

/-- One attempt of `listOffsetsMany`, as a round. -/
def roundFrom (found : PartitionMap (ℤ × ℤ)) (remaining : List (TopicPartition × ℤ))
    (c : Consumer ω) : LookupRound where
  leaders := led T remaining c
  inquiries :=
    match leadersFor T remaining ∅ none c with
    | (.error _, _) => []
    | (.ok (byLeader, _), c) => inquiries T byLeader.toList ⟨found, [], []⟩ c

/-- What a run of `listOffsetsMany` learns. -/
def lookupRounds (want : List (TopicPartition × ℤ)) (c : Consumer ω) : List LookupRound :=
  if want = [] then []
  else
    (trail (listOffsetsOnce T) (maxLeaderRetries + 1) 0 (∅, want) (discardOutstanding T c).2).map
      fun x => roundFrom T x.carried.1 x.carried.2 x.start

/-- `listOffsetsMany` with any code at all where the source calls the end of its loop
unreachable. -/
def listOffsetsManyOr
    (unreachable : PartitionMap (ℤ × ℤ) × List (TopicPartition × ℤ) →
      Act (Consumer ω) Error (PartitionMap (ℤ × ℤ)))
    (want : List (TopicPartition × ℤ)) : Act (Consumer ω) Error (PartitionMap (ℤ × ℤ)) := do
  discardOutstanding T
  if want = [] then pure ∅
  else Act.attempts (listOffsetsOnce T) unreachable (maxLeaderRetries + 1) 0 (∅, want)

/-! ### The leaders of an attempt -/

variable {T}

/-- The first partition asked about has no leader, or joins the others of its leader. -/
theorem leadersFor_cons {tp : TopicPartition} {timestamp : ℤ} {rest : List (TopicPartition × ℤ)}
    {byLeader byLeader' : Std.TreeMap String (List (TopicPartition × ℤ))}
    {noLeader noLeader' : Option Error} {c c' : Consumer ω}
    (h : leadersFor T ((tp, timestamp) :: rest) byLeader noLeader c =
      (.ok (byLeader', noLeader'), c')) :
    (∃ e c₁, leadersFor T rest byLeader (some e) c₁ = (.ok (byLeader', noLeader'), c') ∧
        led T ((tp, timestamp) :: rest) c = led T rest c₁) ∨
      ∃ addr c₁, leadersFor T rest (byLeader.insert addr (byLeader.getD addr [] ++ [(tp, timestamp)]))
          noLeader c₁ = (.ok (byLeader', noLeader'), c') ∧
        led T ((tp, timestamp) :: rest) c = ((tp, timestamp), addr) :: led T rest c₁ := by
  rw [leadersFor] at h
  obtain ⟨outcome, c₁, hleader, h⟩ := bind_eq_ok h
  rw [attempt_apply, Prod.mk.injEq, Except.ok.injEq] at hleader
  have hled : (onCluster (Cluster.leaderAddr T tp) : Act (Consumer ω) Error String) c =
      (outcome, c₁) := Prod.ext hleader.1 hleader.2
  rw [led, hled]
  rcases outcome with e | addr
  · cases e with
    | noLeader topic partition => exact .inl ⟨_, c₁, h, rfl⟩
    | _ => cases h
  · exact .inr ⟨addr, c₁, h, rfl⟩

/-- The requests of an attempt are grouped by leader: none is lost, and each is with the
leader it was found to have. -/
theorem mem_leadersFor : ∀ {remaining : List (TopicPartition × ℤ)} {byLeader byLeader'}
    {noLeader noLeader'} {c c' : Consumer ω},
    leadersFor T remaining byLeader noLeader c = (.ok (byLeader', noLeader'), c') →
    ∀ addr w, w ∈ byLeader'.getD addr [] ↔
      w ∈ byLeader.getD addr [] ∨ (w, addr) ∈ led T remaining c
  | [], byLeader, byLeader', _, _, _, _, h, addr, w => by
      cases h
      simp [led]
  | (tp, timestamp) :: rest, byLeader, byLeader', noLeader, noLeader', c, c', h, addr, w => by
      rcases leadersFor_cons h with ⟨e, c₁, hrest, hled⟩ | ⟨a, c₁, hrest, hled⟩
      · rw [hled]
        exact mem_leadersFor hrest addr w
      · rw [hled, mem_leadersFor hrest addr w, Std.TreeMap.getD_insert, List.mem_cons]
        by_cases ha : a = addr
        · subst ha
          simp [or_assoc]
        · have hne : ((w, addr) : (TopicPartition × ℤ) × String) ≠ ((tp, timestamp), a) :=
            fun heq => ha (congrArg Prod.snd heq).symm
          simp [ha, Ne.symm ha]

theorem mem_of_mem_led : ∀ {remaining : List (TopicPartition × ℤ)} {c : Consumer ω}
    {w : TopicPartition × ℤ} {addr : String}, (w, addr) ∈ led T remaining c → w ∈ remaining
  | [], _, _, _, h => by cases h
  | (tp, timestamp) :: rest, c, w, addr, h => by
      rw [led] at h
      split at h
      · rcases List.mem_cons.mp h with heq | h
        · exact List.mem_cons.mpr (.inl (congrArg Prod.fst heq))
        · exact List.mem_cons_of_mem _ (mem_of_mem_led h)
      · exact List.mem_cons_of_mem _ (mem_of_mem_led h)
      · cases h

/-- A partition without a leader is remembered. -/
theorem led_of_leadersFor : ∀ {remaining : List (TopicPartition × ℤ)} {byLeader byLeader'}
    {noLeader noLeader'} {c c' : Consumer ω},
    leadersFor T remaining byLeader noLeader c = (.ok (byLeader', noLeader'), c') →
    noLeader' = none → noLeader = none ∧ ∀ w ∈ remaining, ∃ addr, (w, addr) ∈ led T remaining c
  | [], _, _, _, _, _, _, h, hnone => by
      cases h
      exact ⟨hnone, fun _ hw => by cases hw⟩
  | (tp, timestamp) :: rest, byLeader, byLeader', noLeader, noLeader', c, c', h, hnone => by
      rcases leadersFor_cons h with ⟨e, c₁, hrest, -⟩ | ⟨a, c₁, hrest, hled⟩
      · obtain ⟨hsome, -⟩ := led_of_leadersFor hrest hnone
        cases hsome
      · obtain ⟨hfirst, hall⟩ := led_of_leadersFor hrest hnone
        rw [hled]
        refine ⟨hfirst, fun w hw => ?_⟩
        rcases List.mem_cons.mp hw with rfl | hw
        · exact ⟨a, List.mem_cons_self⟩
        · obtain ⟨addr, haddr⟩ := hall w hw
          exact ⟨addr, List.mem_cons_of_mem _ haddr⟩

/-! ### The answers of an attempt -/

section Answers

variable {want : List (TopicPartition × ℤ)}
  {Said : TopicPartition × ℤ → ListOffsetsPartitionResponse → Prop}

/-- What is found was answered to what is wanted, and what is asked again is wanted. -/
structure Founded (want : List (TopicPartition × ℤ))
    (Said : TopicPartition × ℤ → ListOffsetsPartitionResponse → Prop)
    (found : PartitionMap (ℤ × ℤ)) (retry : List (TopicPartition × ℤ)) : Prop where
  found : ∀ tp entry, found[tp]? = some entry → ∃ w ∈ want, w.1 = tp ∧ ∃ part, Said w part ∧
    part.errorCode = 0 ∧ 0 ≤ part.offset ∧ entry = (part.offset, part.timestamp)
  retry : ∀ w ∈ retry, w ∈ want

/-- A partition is found, or has no such offset, or is asked again. -/
def Accounted (Said : TopicPartition × ℤ → ListOffsetsPartitionResponse → Prop)
    (found : PartitionMap (ℤ × ℤ)) (retry : List (TopicPartition × ℤ)) (w : TopicPartition × ℤ) :
    Prop :=
  w.1 ∈ found ∨ (∃ part, Said w part ∧ part.errorCode = 0 ∧ part.offset < 0) ∨ w ∈ retry

/-- A lookup that has come further has lost nothing. -/
structure Furthers (found : PartitionMap (ℤ × ℤ)) (retry : List (TopicPartition × ℤ))
    (found' : PartitionMap (ℤ × ℤ)) (retry' : List (TopicPartition × ℤ)) : Prop where
  found : ∀ tp ∈ found, tp ∈ found'
  retry : ∀ w ∈ retry, w ∈ retry'

theorem Furthers.refl (found : PartitionMap (ℤ × ℤ)) (retry : List (TopicPartition × ℤ)) :
    Furthers found retry found retry :=
  ⟨fun _ => id, fun _ => id⟩

theorem Furthers.trans {found found' found'' : PartitionMap (ℤ × ℤ)}
    {retry retry' retry'' : List (TopicPartition × ℤ)} (h : Furthers found retry found' retry')
    (h' : Furthers found' retry' found'' retry'') : Furthers found retry found'' retry'' :=
  ⟨fun tp htp => h'.found tp (h.found tp htp), fun w hw => h'.retry w (h.retry w hw)⟩

theorem Accounted.mono {found found' : PartitionMap (ℤ × ℤ)}
    {retry retry' : List (TopicPartition × ℤ)} {w : TopicPartition × ℤ}
    (h : Accounted Said found retry w) (hfurther : Furthers found retry found' retry') :
    Accounted Said found' retry' w := by
  rcases h with hfound | hnone | hretry
  · exact .inl (hfurther.found w.1 hfound)
  · exact .inr (.inl hnone)
  · exact .inr (.inr (hfurther.retry w hretry))

/-- Distinct partitions have one timestamp each. -/
theorem eq_of_mem_want (hdistinct : (want.map Prod.fst).Nodup) {w w' : TopicPartition × ℤ}
    (hw : w ∈ want) (hw' : w' ∈ want) (h : w.1 = w'.1) : w = w' :=
  List.inj_on_of_nodup_map hdistinct hw hw' h

/-- The timestamp under which a partition is asked again is the one it was asked with. -/
theorem lookup_asked (hdistinct : (want.map Prod.fst).Nodup) {asked : List (TopicPartition × ℤ)}
    (hasked : ∀ w ∈ asked, w ∈ want) {w : TopicPartition × ℤ} (hw : w ∈ asked) :
    (asked.lookup w.1).getD latest = w.2 := by
  rcases hlookup : asked.lookup w.1 with _ | timestamp
  · rw [List.lookup_eq_none_iff] at hlookup
    have hne := hlookup w hw
    simp at hne
  · obtain ⟨l₁, l₂, hsplit, -⟩ := List.lookup_eq_some_iff.mp hlookup
    have hmem : (w.1, timestamp) ∈ asked := by
      rw [hsplit]
      simp
    have heq := eq_of_mem_want hdistinct (hasked _ hmem) (hasked w hw) rfl
    rw [← heq, Option.getD_some]

theorem readOffsets_spec (hdistinct : (want.map Prod.fst).Nodup)
    {asked : List (TopicPartition × ℤ)} (hasked : ∀ w ∈ asked, w ∈ want) :
    ∀ {answers : List (TopicPartition × ListOffsetsPartitionResponse)} {l l' : Lookup}
      {c c' : Consumer ω},
      (∀ w ∈ asked, ∀ part, (w.1, part) ∈ answers → Said w part) →
      (∀ a ∈ answers, ∃ w ∈ asked, w.1 = a.1) →
      readOffsets asked answers l c = (.ok l', c') → Founded want Said l.found l.retry →
      Founded want Said l'.found l'.retry ∧ Furthers l.found l.retry l'.found l'.retry ∧
        ∀ w ∈ asked, w.1 ∈ answers.map Prod.fst → Accounted Said l'.found l'.retry w
  | [], l, l', c, c', _, _, h, hl => by
      cases h
      exact ⟨hl, Furthers.refl _ _, fun _ _ hw => by cases hw⟩
  | (tp, part) :: rest, l, l', c, c', hsaid, hnames, h, hl => by
      have hsaid' : ∀ w ∈ asked, ∀ p, (w.1, p) ∈ rest → Said w p := fun w hw p hp =>
        hsaid w hw p (List.mem_cons_of_mem _ hp)
      have hnames' : ∀ a ∈ rest, ∃ w ∈ asked, w.1 = a.1 := fun a ha =>
        hnames a (List.mem_cons_of_mem _ ha)
      obtain ⟨⟨tp, timestamp⟩, hw, rfl⟩ := hnames (tp, part) List.mem_cons_self
      have hpart : Said (tp, timestamp) part :=
        hsaid _ hw part List.mem_cons_self
      -- What is left to show once the first answer has been taken in.
      have hrest : ∀ {l₁ : Lookup} {c₁ : Consumer ω},
          readOffsets asked rest l₁ c₁ = (.ok l', c') → Founded want Said l₁.found l₁.retry →
          Furthers l.found l.retry l₁.found l₁.retry →
          Accounted Said l₁.found l₁.retry (tp, timestamp) →
          Founded want Said l'.found l'.retry ∧ Furthers l.found l.retry l'.found l'.retry ∧
            ∀ w ∈ asked, w.1 ∈ ((tp, part) :: rest).map Prod.fst →
              Accounted Said l'.found l'.retry w := by
        intro l₁ c₁ h₁ hl₁ hfurther haccount
        obtain ⟨hfounded, hfurther', haccounted⟩ :=
          readOffsets_spec hdistinct hasked hsaid' hnames' h₁ hl₁
        refine ⟨hfounded, hfurther.trans hfurther', fun w' hw' hmem => ?_⟩
        rw [List.map_cons, List.mem_cons] at hmem
        rcases hmem with heq | hmem
        · have hsame := eq_of_mem_want hdistinct (hasked w' hw') (hasked _ hw) heq
          rw [hsame]
          exact haccount.mono hfurther'
        · exact haccounted w' hw' hmem
      rw [readOffsets] at h
      dsimp only at h
      split at h
      · next hcode =>
          have hzero : part.errorCode = 0 := by simpa [ErrorCode.isOk, ErrorCode.none] using hcode
          by_cases hoffset : 0 ≤ part.offset
          · rw [if_pos hoffset] at h
            apply hrest h
            · refine ⟨fun tp' entry hentry => ?_, hl.retry⟩
              rw [Std.TreeMap.getElem?_insert] at hentry
              split at hentry
              · next heq =>
                  rw [Option.some.injEq] at hentry
                  exact ⟨_, hasked _ hw, Std.LawfulEqCmp.eq_of_compare heq, part, hpart, hzero,
                    hoffset, hentry.symm⟩
              · exact hl.found tp' entry hentry
            · exact ⟨fun tp' htp' => Std.TreeMap.mem_insert.mpr (.inr htp'), fun _ => id⟩
            · exact .inl Std.TreeMap.mem_insert_self
          · rw [if_neg hoffset] at h
            exact hrest h hl (Furthers.refl _ _) (.inr (.inl ⟨part, hpart, hzero, by omega⟩))
      · split at h
        · obtain ⟨u, c₁, -, h⟩ := bind_eq_ok h
          have hlookup := lookup_asked hdistinct hasked hw
          dsimp only at hlookup
          rw [hlookup] at h
          apply hrest h
          · refine ⟨hl.found, fun w' hw' => ?_⟩
            rcases List.mem_append.mp hw' with hw' | hw'
            · exact hl.retry w' hw'
            · rw [List.mem_singleton.mp hw']
              exact hasked _ hw
          · exact ⟨fun _ => id, fun w' hw' => List.mem_append_left _ hw'⟩
          · exact .inr (.inr (by simp))
        · next hok _ =>
            obtain ⟨u, c₁, hcheck, -⟩ := bind_eq_ok h
            rw [ofExcept_apply, check, if_neg (by simpa using hok)] at hcheck
            cases hcheck

theorem mem_of_mem_inquiries : ∀ {groups : List (String × List (TopicPartition × ℤ))} {l : Lookup}
    {c : Consumer ω} {x : Inquiry}, x ∈ inquiries T groups l c → (x.addr, x.asked) ∈ groups
  | [], _, _, _, hx => by cases hx
  | (addr, asked) :: rest, l, c, x, hx => by
      rw [inquiries] at hx
      split at hx
      · cases hx
      · rcases List.mem_cons.mp hx with rfl | hx
        · exact List.mem_cons_self
        · split at hx
          · cases hx
          · exact List.mem_cons_of_mem _ (mem_of_mem_inquiries hx)

/-- Each leader has answered, and each answer was taken in. -/
theorem askLeaders_spec (hdistinct : (want.map Prod.fst).Nodup) :
    ∀ {groups : List (String × List (TopicPartition × ℤ))} {l l' : Lookup} {c c' : Consumer ω},
      (∀ group ∈ groups, ∀ w ∈ group.2, w ∈ want) →
      (∀ x ∈ inquiries T groups l c, x.Complete) →
      (∀ x ∈ inquiries T groups l c, ∀ w ∈ x.asked, ∀ part, (w.1, part) ∈ x.answer →
        Said w part) →
      askLeaders T groups l c = (.ok l', c') → Founded want Said l.found l.retry →
      Founded want Said l'.found l'.retry ∧ Furthers l.found l.retry l'.found l'.retry ∧
        ∀ group ∈ groups, ∀ w ∈ group.2, Accounted Said l'.found l'.retry w
  | [], l, l', c, c', _, _, _, h, hl => by
      cases h
      exact ⟨hl, Furthers.refl _ _, fun _ hgroup => by cases hgroup⟩
  | (addr, asked) :: rest, l, l', c, c', hgroups, hcomplete, hsaid, h, hl => by
      rw [askLeaders] at h
      obtain ⟨c₀, s₀, hget, h⟩ := bind_eq_ok h
      cases hget
      obtain ⟨topics, c₁, hcall, h⟩ := bind_eq_ok h
      obtain ⟨l₁, c₂, hread, h⟩ := bind_eq_ok h
      have hanswers : readOffsets asked (answersOf topics) l c₁ = (.ok l₁, c₂) := hread
      rw [inquiries, hcall] at hcomplete hsaid
      dsimp only at hcomplete hsaid
      rw [hanswers] at hcomplete hsaid
      have hfirst := hcomplete _ List.mem_cons_self
      obtain ⟨hl₁, hfurther, haccount⟩ := readOffsets_spec hdistinct
        (hgroups (addr, asked) List.mem_cons_self) (hsaid _ List.mem_cons_self)
        (fun a ha => List.mem_map.mp ((hfirst a.1).mp (List.mem_map_of_mem ha))) hanswers hl
      obtain ⟨hl', hfurther', haccount'⟩ := askLeaders_spec hdistinct
        (fun group hgroup => hgroups group (List.mem_cons_of_mem _ hgroup))
        (fun x hx => hcomplete x (List.mem_cons_of_mem _ hx))
        (fun x hx => hsaid x (List.mem_cons_of_mem _ hx)) h hl₁
      refine ⟨hl', hfurther.trans hfurther', fun group hgroup w hw => ?_⟩
      rcases List.mem_cons.mp hgroup with rfl | hgroup
      · have hmem : w.1 ∈ (answersOf topics).map Prod.fst :=
          (hfirst w.1).mpr (List.mem_map_of_mem hw)
        exact (haccount w hw hmem).mono hfurther'
      · exact haccount' group hgroup w hw

/-! ### The next attempt -/

theorem subset_addMissing {found : PartitionMap (ℤ × ℤ)} :
    ∀ {remaining retry : List (TopicPartition × ℤ)},
      ∀ w ∈ retry, w ∈ addMissing found retry remaining
  | [], _, _, hw => hw
  | (tp, timestamp) :: rest, retry, w, hw => by
      rw [addMissing]
      apply subset_addMissing
      split
      · exact List.mem_append_left _ hw
      · exact hw

theorem mem_of_mem_addMissing {found : PartitionMap (ℤ × ℤ)} :
    ∀ {remaining retry : List (TopicPartition × ℤ)} {w : TopicPartition × ℤ},
      w ∈ addMissing found retry remaining → w ∈ retry ∨ w ∈ remaining
  | [], _, _, hw => .inl hw
  | (tp, timestamp) :: rest, retry, w, hw => by
      rw [addMissing] at hw
      rcases mem_of_mem_addMissing hw with hw | hw
      · split at hw
        · rcases List.mem_append.mp hw with hw | hw
          · exact .inl hw
          · exact .inr (List.mem_cons.mpr (.inl (List.mem_singleton.mp hw)))
        · exact .inl hw
      · exact .inr (List.mem_cons_of_mem _ hw)

/-- A partition that is not found is asked again. -/
theorem named_addMissing {found : PartitionMap (ℤ × ℤ)} :
    ∀ {remaining retry : List (TopicPartition × ℤ)}, ∀ w ∈ remaining,
      w.1 ∈ found ∨ ∃ r ∈ addMissing found retry remaining, r.1 = w.1
  | (tp, timestamp) :: rest, retry, w, hw => by
      rw [addMissing]
      rcases List.mem_cons.mp hw with rfl | hw
      · by_cases hfound : tp ∈ found
        · exact .inl hfound
        · right
          by_cases hany : retry.any (·.1 = tp)
          · obtain ⟨r, hr, heq⟩ := List.any_eq_true.mp hany
            refine ⟨r, subset_addMissing r ?_, by simpa using heq⟩
            rw [if_neg (by simp [hany])]
            exact hr
          · refine ⟨(tp, timestamp), subset_addMissing _ ?_, rfl⟩
            rw [Bool.not_eq_true] at hany
            rw [if_pos ⟨hfound, by rw [hany]; rfl⟩]
            simp
      · exact named_addMissing w hw

/-- The lookup between two attempts. -/
structure Tracked (want : List (TopicPartition × ℤ))
    (Said : TopicPartition × ℤ → ListOffsetsPartitionResponse → Prop)
    (found : PartitionMap (ℤ × ℤ)) (remaining : List (TopicPartition × ℤ)) : Prop where
  founded : Founded want Said found remaining
  accounted : ∀ w ∈ want, Accounted Said found remaining w

theorem Tracked.start : Tracked want Said ∅ want :=
  ⟨⟨fun tp entry h => by simp at h, fun _ => id⟩, fun _ hw => .inr (.inr hw)⟩

/-- What one attempt asks again accounts for what it was given. -/
theorem Tracked.step {found : PartitionMap (ℤ × ℤ)} {remaining : List (TopicPartition × ℤ)}
    {l : Lookup} {retry : List (TopicPartition × ℤ)} (h : Tracked want Said found remaining)
    (hl : Founded want Said l.found retry) (hfound : ∀ tp ∈ found, tp ∈ l.found)
    (hremaining : ∀ w ∈ remaining, Accounted Said l.found retry w) :
    Tracked want Said l.found retry := by
  refine ⟨hl, fun w hw => ?_⟩
  rcases h.accounted w hw with hmem | hnone | hmem
  · exact .inl (hfound w.1 hmem)
  · exact .inr (.inl hnone)
  · exact hremaining w hmem

/-- What an attempt that ends does: all it was given that has no leader is added to
what is asked again, and only the last attempt does not ask again. -/
theorem listOffsetsOnce_cases {attempt : ℕ} {found : PartitionMap (ℤ × ℤ)}
    {remaining : List (TopicPartition × ℤ)} {c c' : Consumer ω}
    {out : (PartitionMap (ℤ × ℤ) × List (TopicPartition × ℤ)) ⊕ PartitionMap (ℤ × ℤ)}
    (h : listOffsetsOnce T attempt (found, remaining) c = (.ok out, c')) :
    ∃ byLeader noLeader l c₁ c₂ retry,
      leadersFor T remaining ∅ none c = (.ok (byLeader, noLeader), c₁) ∧
      askLeaders T byLeader.toList ⟨found, [], []⟩ c₁ = (.ok l, c₂) ∧
      (noLeader = none ∧ retry = l.retry ∨ retry = addMissing l.found l.retry remaining) ∧
      (out = .inr l.found ∧ retry = [] ∨
        out = .inl (l.found, retry) ∧ attempt ≠ maxLeaderRetries) := by
  have hnext : ∀ {l : Lookup} {retry : List (TopicPartition × ℤ)} {c₂ : Consumer ω},
      (if retry = [] then pure (.inr l.found)
        else if attempt = maxLeaderRetries then
          throw (.broker "ListOffsets" ErrorCode.notLeaderOrFollower.code .refreshMetadata)
        else do
          refreshTopics T (Std.TreeSet.ofList l.refresh).toList
          onCluster (Cluster.sleep T leaderBackoff)
          pure (.inl (l.found, retry)) : Act (Consumer ω) Error _) c₂ = (.ok out, c') →
      out = .inr l.found ∧ retry = [] ∨
        out = .inl (l.found, retry) ∧ attempt ≠ maxLeaderRetries := by
    intro l retry c₂ h
    split at h
    · next hempty =>
        cases h
        exact .inl ⟨rfl, hempty⟩
    · split at h
      · cases h
      · next hattempt =>
          obtain ⟨_, _, _, h⟩ := bind_eq_ok h
          obtain ⟨_, _, _, h⟩ := bind_eq_ok h
          cases h
          exact .inr ⟨rfl, hattempt⟩
  rw [listOffsetsOnce] at h
  obtain ⟨⟨byLeader, noLeader⟩, c₁, hleaders, h⟩ := bind_eq_ok h
  obtain ⟨l, c₂, hanswers, h⟩ := bind_eq_ok h
  cases noLeader with
  | none => exact ⟨_, _, l, _, _, l.retry, hleaders, hanswers, .inl ⟨rfl, rfl⟩, hnext h⟩
  | some e =>
      dsimp only at h
      split at h
      · cases h
      · exact ⟨_, _, l, _, _, _, hleaders, hanswers, .inr rfl, hnext h⟩

/-- The last attempt does not ask for another. -/
theorem listOffsetsOnce_last {b b' : PartitionMap (ℤ × ℤ) × List (TopicPartition × ℤ)}
    {c c' : Consumer ω} : listOffsetsOnce T maxLeaderRetries b c ≠ (.ok (.inl b'), c') := by
  intro h
  obtain ⟨_, _, _, _, _, _, -, -, -, ⟨hout, -⟩ | ⟨-, hattempt⟩⟩ := listOffsetsOnce_cases h
  · cases hout
  · exact hattempt rfl

/-- An attempt tracks every partition. -/
theorem tracked_listOffsetsOnce (hdistinct : (want.map Prod.fst).Nodup) {attempt : ℕ}
    {found : PartitionMap (ℤ × ℤ)} {remaining : List (TopicPartition × ℤ)} {c c' : Consumer ω}
    {out : (PartitionMap (ℤ × ℤ) × List (TopicPartition × ℤ)) ⊕ PartitionMap (ℤ × ℤ)}
    (hcomplete : ∀ x ∈ (roundFrom T found remaining c).inquiries, x.Complete)
    (hsaid : ∀ w part, LeaderSaid [roundFrom T found remaining c] w part → Said w part)
    (h : listOffsetsOnce T attempt (found, remaining) c = (.ok out, c'))
    (htracked : Tracked want Said found remaining) :
    ∃ found' retry, Tracked want Said found' retry ∧
      (out = .inr found' ∧ retry = [] ∨ out = .inl (found', retry)) := by
  obtain ⟨byLeader, noLeader, l, c₁, c₂, retry, hleaders, hanswers, hretry, hout⟩ :=
    listOffsetsOnce_cases h
  have hinquiries : (roundFrom T found remaining c).inquiries =
      inquiries T byLeader.toList ⟨found, [], []⟩ c₁ := by
    rw [roundFrom, hleaders]
  rw [hinquiries] at hcomplete
  have hled : ∀ addr asked, (addr, asked) ∈ byLeader.toList → ∀ w ∈ asked,
      (w, addr) ∈ led T remaining c := by
    intro addr asked hgroup w hw
    rw [Std.TreeMap.mem_toList_iff_getElem?_eq_some] at hgroup
    have hmem := (mem_leadersFor hleaders addr w).mp (by
      rwa [Std.TreeMap.getD_eq_getD_getElem?, hgroup, Option.getD_some])
    simpa using hmem
  have hgroups : ∀ group ∈ byLeader.toList, ∀ w ∈ group.2, w ∈ want := fun group hgroup w hw =>
    htracked.founded.retry w (mem_of_mem_led (hled group.1 group.2 hgroup w hw))
  obtain ⟨hl, hfurther, haccount⟩ := askLeaders_spec hdistinct hgroups hcomplete
    (fun x hx w hw part hpart => hsaid w part ⟨_, List.mem_singleton_self _, x, hinquiries ▸ hx,
      hled x.addr x.asked (mem_of_mem_inquiries hx) w hw, hw, hpart⟩) hanswers
    ⟨htracked.founded.found, fun w hw => by cases hw⟩
  refine ⟨l.found, retry, ?_, hout.imp_right And.left⟩
  rcases hretry with ⟨hnone, rfl⟩ | rfl
  · -- Every partition was asked of its leader.
    apply htracked.step hl hfurther.found
    intro w hw
    obtain ⟨addr, haddr⟩ := (led_of_leadersFor hleaders hnone).2 w hw
    have hgroup : w ∈ byLeader.getD addr [] := (mem_leadersFor hleaders addr w).mpr (.inr haddr)
    rw [Std.TreeMap.getD_eq_getD_getElem?] at hgroup
    rcases hasked : byLeader[addr]? with _ | asked
    · rw [hasked] at hgroup
      cases hgroup
    · rw [hasked, Option.getD_some] at hgroup
      exact haccount (addr, asked) (Std.TreeMap.mem_toList_iff_getElem?_eq_some.mpr hasked) w hgroup
  · -- Whatever is not found is asked again.
    apply htracked.step _ hfurther.found
    · intro w hw
      rcases @named_addMissing l.found remaining l.retry w hw with hfound | ⟨r, hr, heq⟩
      · exact .inl hfound
      · have hrw : r ∈ want := (mem_of_mem_addMissing hr).elim (hl.retry r)
          (htracked.founded.retry r)
        rw [eq_of_mem_want hdistinct hrw (htracked.founded.retry w hw) heq] at hr
        exact .inr (.inr hr)
    · exact ⟨hl.found, fun w hw => (mem_of_mem_addMissing hw).elim (hl.retry w)
        (htracked.founded.retry w)⟩

end Answers

/-! ### The run -/

theorem leaderSaid_mono {rounds rounds' : List LookupRound} {w : TopicPartition × ℤ}
    {part : ListOffsetsPartitionResponse} (h : LeaderSaid rounds w part)
    (hsub : ∀ round ∈ rounds, round ∈ rounds') : LeaderSaid rounds' w part := by
  obtain ⟨round, hround, hsaid⟩ := h
  exact ⟨round, hsub round hround, hsaid⟩

/-- Whatever stands after the loop is not reached. -/
theorem listOffsetsManyOr_eq (T : Transport ω) (unreachable) (want : List (TopicPartition × ℤ))
    (c : Consumer ω) : listOffsetsManyOr T unreachable want c = listOffsetsMany T want c := by
  rw [listOffsetsManyOr, listOffsetsMany, bind_apply, bind_apply]
  rcases discardOutstanding T c with ⟨e | u, c₁⟩
  · rfl
  · dsimp only
    split
    · rfl
    · apply attempts_congr
      intro b b' s s'
      rw [Nat.zero_add]
      exact listOffsetsOnce_last

/-- The lookup of a run with a result tracks every partition to its end. -/
theorem tracked_listOffsetsMany {want : List (TopicPartition × ℤ)}
    (hdistinct : (want.map Prod.fst).Nodup) {c c' : Consumer ω} {found : PartitionMap (ℤ × ℤ)}
    (hcomplete : ∀ round ∈ lookupRounds T want c, ∀ x ∈ round.inquiries, x.Complete)
    (h : listOffsetsMany T want c = (.ok found, c')) :
    Tracked want (LeaderSaid (lookupRounds T want c)) found [] := by
  rw [listOffsetsMany] at h
  obtain ⟨u, c₁, hdiscard, h⟩ := bind_eq_ok h
  by_cases hwant : want = []
  · rw [if_pos hwant] at h
    cases h
    subst hwant
    exact Tracked.start
  rw [if_neg hwant] at h
  have hrounds : lookupRounds T want c =
      (trail (listOffsetsOnce T) (maxLeaderRetries + 1) 0 (∅, want) c₁).map
        fun x => roundFrom T x.carried.1 x.carried.2 x.start := by
    rw [lookupRounds, if_neg hwant, hdiscard]
  -- One attempt, on what it is given.
  have hstep : ∀ x ∈ trail (listOffsetsOnce T) (maxLeaderRetries + 1) 0 (∅, want) c₁, ∀ out s',
      Tracked want (LeaderSaid (lookupRounds T want c)) x.carried.1 x.carried.2 →
      listOffsetsOnce T x.index x.carried x.start = (.ok out, s') →
      ∃ found' retry, Tracked want (LeaderSaid (lookupRounds T want c)) found' retry ∧
        (out = .inr found' ∧ retry = [] ∨ out = .inl (found', retry)) := by
    intro x hx out s' htracked hout
    have hround : roundFrom T x.carried.1 x.carried.2 x.start ∈ lookupRounds T want c := by
      rw [hrounds]
      exact List.mem_map_of_mem hx
    apply tracked_listOffsetsOnce hdistinct (hcomplete _ hround) _ hout htracked
    intro w part hsaid
    apply leaderSaid_mono hsaid
    intro round hmem
    rwa [List.mem_singleton.mp hmem]
  have htrail : ∀ x ∈ trail (listOffsetsOnce T) (maxLeaderRetries + 1) 0 (∅, want) c₁,
      Tracked want (LeaderSaid (lookupRounds T want c)) x.carried.1 x.carried.2 := by
    apply carried_of_mem_trail (I := fun b : PartitionMap (ℤ × ℤ) × List (TopicPartition × ℤ) =>
      Tracked want (LeaderSaid (lookupRounds T want c)) b.1 b.2) Tracked.start
    intro x hx b' s' htracked hout
    obtain ⟨found', retry, htracked', ⟨hinr, -⟩ | hinl⟩ := hstep x hx _ s' htracked hout
    · cases hinr
    · cases hinl
      exact htracked'
  rcases exists_trail_of_attempts h with ⟨x, hx, hlast⟩ | ⟨b, s, hexhausted⟩
  · obtain ⟨found', retry, htracked, ⟨hinr, hretry⟩ | hinl⟩ := hstep x hx _ c' (htrail x hx) hlast
    · cases hinr
      rwa [hretry] at htracked
    · cases hinl
  · cases hexhausted

/-- A lookup of distinct partitions never falls out of its loop. When it has a result,
what it found are partitions it was asked for, and each of these is found with what its
leader answered for its own timestamp, or has no such offset by the word of its leader. -/
theorem listOffsetsMany_complete (T : Transport ω) (want : List (TopicPartition × ℤ))
    (hdistinct : (want.map Prod.fst).Nodup) (c : Consumer ω) :
    (∀ unreachable, listOffsetsManyOr T unreachable want c = listOffsetsMany T want c) ∧
    ((∀ round ∈ lookupRounds T want c, ∀ x ∈ round.inquiries, x.Complete) →
      ∀ found c', listOffsetsMany T want c = (.ok found, c') →
        (∀ tp ∈ found, tp ∈ want.map Prod.fst) ∧
        ∀ w ∈ want,
          (∃ part, LeaderSaid (lookupRounds T want c) w part ∧ part.errorCode = 0 ∧
            0 ≤ part.offset ∧ found[w.1]? = some (part.offset, part.timestamp)) ∨
          w.1 ∉ found ∧ ∃ part, LeaderSaid (lookupRounds T want c) w part ∧
            part.errorCode = 0 ∧ part.offset < 0) := by
  refine ⟨fun unreachable => listOffsetsManyOr_eq T unreachable want c,
    fun hcomplete found c' h => ?_⟩
  have htracked := tracked_listOffsetsMany hdistinct hcomplete h
  constructor
  · intro tp htp
    obtain ⟨entry, hentry⟩ := Option.isSome_iff_exists.mp (Std.TreeMap.isSome_getElem?_iff_mem.mpr htp)
    obtain ⟨w, hw, heq, -⟩ := htracked.founded.found tp entry hentry
    exact heq ▸ List.mem_map_of_mem hw
  · intro w hw
    by_cases hfound : w.1 ∈ found
    · left
      obtain ⟨entry, hentry⟩ :=
        Option.isSome_iff_exists.mp (Std.TreeMap.isSome_getElem?_iff_mem.mpr hfound)
      obtain ⟨w', hw', heq, part, hsaid, hcode, hoffset, rfl⟩ :=
        htracked.founded.found w.1 entry hentry
      rw [eq_of_mem_want hdistinct hw' hw heq] at hsaid
      exact ⟨part, hsaid, hcode, hoffset, hentry⟩
    · right
      rcases htracked.accounted w hw with hmem | hnone | hmem
      · exact absurd hmem hfound
      · exact ⟨hfound, hnone⟩
      · cases hmem

/-- A broker that answers for the first of two partitions, and names a new leader of the
second before it has no offset for that one. -/
def movedOnce : Consumer Tape :=
  let metadata := .metadata ⟨[⟨1, "b", 1⟩], 1, [⟨0, some "t", [⟨0, 0, 1⟩, ⟨0, 1, 1⟩]⟩]⟩
  connected [metadata, .listOffsets [("t", [⟨0, 0, 7, 5⟩, ⟨1, 6, -1, -1⟩])], metadata,
    .listOffsets [("t", [⟨1, 0, -1, -1⟩])]]

theorem listOffsetsMany_complete_moved :
    let want := [(⟨"t", 0⟩, 3), (⟨"t", 1⟩, 4)]
    ∃ found, (listOffsetsMany Tape.transport want movedOnce).1 = .ok found ∧
      found.keys = [⟨"t", 0⟩] ∧
      (∀ tp ∈ found, tp ∈ want.map Prod.fst) ∧
      ∀ w ∈ want,
        (∃ part, LeaderSaid (lookupRounds Tape.transport want movedOnce) w part ∧
          part.errorCode = 0 ∧ 0 ≤ part.offset ∧
          found[w.1]? = some (part.offset, part.timestamp)) ∨
        w.1 ∉ found ∧ ∃ part, LeaderSaid (lookupRounds Tape.transport want movedOnce) w part ∧
          part.errorCode = 0 ∧ part.offset < 0 := by
  intro want
  have hkeys : (listOffsetsMany Tape.transport want movedOnce).1.toOption.map (·.keys) =
      some [⟨"t", 0⟩] := by decide
  have hanswers : (lookupRounds Tape.transport want movedOnce).all (fun round =>
      round.inquiries.all fun x => x.answer.map Prod.fst = x.asked.map Prod.fst) = true := by
    decide
  rcases hrun : listOffsetsMany Tape.transport want movedOnce with ⟨e | found, c'⟩
  · rw [hrun] at hkeys
    cases hkeys
  · rw [hrun] at hkeys
    refine ⟨found, rfl, Option.some.inj hkeys, ?_⟩
    apply (listOffsetsMany_complete Tape.transport want (by decide) movedOnce).2 _ found c' hrun
    intro round hround x hx tp
    have hall := List.all_eq_true.mp (List.all_eq_true.mp hanswers round hround) x hx
    rw [of_decide_eq_true hall]

end Consumer

end Barnabas.Client
