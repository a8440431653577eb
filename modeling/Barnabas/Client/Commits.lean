import Barnabas.Client.Passing

/-!
What the consumer commits (`commit` and `maybe_auto_commit` of
`barnabas-client/src/consumer.rs`).

A commit carries the positions the consumer has when it is sent. A poll commits before the
membership may move a position and before it reads anything, so that what it commits is what
the calls before it have left: the records behind a committed offset have been returned by
polls that were over when the commit was sent.
-/

namespace Barnabas.Client

open Barnabas.Lib Barnabas.Core Barnabas.Lib.Act

/-- If this is a commit, it is one of these positions. -/
def Frame.Commits (positions : PartitionMap ℤ) (f : Frame) : Prop :=
  ∀ req, f.request = .offsetCommit req → req.topics = Producer.byTopic positions.toList

theorem Frame.commits_of_isPlumbing (positions : PartitionMap ℤ) {f : Frame}
    (h : f.request.isPlumbing) : f.Commits positions := by
  intro req hreq
  rw [hreq] at h
  cases h

theorem Frame.commits_of_isMembership (positions : PartitionMap ℤ) {f : Frame}
    (h : f.request.isMembership) : f.Commits positions := by
  intro req hreq
  rw [hreq] at h
  cases h

namespace Consumer

variable {ω : Type} (T : Transport ω) {D : Decoders}

/-- Every commit sent is one of these positions. -/
def Commits (positions : PartitionMap ℤ) (c c' : Consumer ω) : Prop :=
  Appends Cluster.sent (Frame.Commits positions) c.cluster c'.cluster

instance (positions : PartitionMap ℤ) : IsPreorder (Consumer ω) (Commits positions) where
  refl c := refl_of (Appends Cluster.sent (Frame.Commits positions)) c.cluster
  trans _ _ _ h h' := trans_of (Appends Cluster.sent (Frame.Commits positions)) h h'

theorem Commits.of_cluster {positions : PartitionMap ℤ} {c c' : Consumer ω}
    (h : c'.cluster = c.cluster) : Commits positions c c' :=
  .of_eq (congrArg Cluster.sent h)

/-- While the consumer has these positions it keeps them, and commits no others. -/
def Holds (positions : PartitionMap ℤ) (c c' : Consumer ω) : Prop :=
  c.positions = positions → c'.positions = positions ∧ Commits positions c c'

instance (positions : PartitionMap ℤ) : IsPreorder (Consumer ω) (Holds positions) where
  refl c h := ⟨h, refl_of (Commits positions) c⟩
  trans _ _ _ h h' hc := ⟨(h' (h hc).1).1, trans_of (Commits positions) (h hc).2 (h' (h hc).1).2⟩

theorem permits_commits (positions : PartitionMap ℤ) :
    Permits T (Appends Cluster.sent (Frame.Commits positions)) (Frame.Commits positions)
      (@Commits ω positions) where
  calls := Cluster.permits_appends T fun _ => Frame.commits_of_isPlumbing positions
  coordinates := Cluster.coordinates_appends T fun _ => Frame.commits_of_isPlumbing positions
  recv := (Cluster.carries_appends fun _ => Frame.commits_of_isPlumbing positions).recvMany T
    .fetch Body.asFetch
  membership _ := Frame.commits_of_isMembership positions
  listOffsets f _ hf req hreq := by
    rw [hf] at hreq
    cases hreq
  cluster _ _ h := h
  discardOutstanding := moves_discardOutstanding T (fun _ _ _ => Commits.of_cluster rfl)
    fun addrs => Moves.zoom ((Cluster.carries_appends fun _ =>
      Frame.commits_of_isPlumbing positions).recvMany T .fetch Body.asFetch addrs) fun _ _ h => h
  fetch _ _ _ := Commits.of_cluster rfl
  group _ _ _ _ _ h := h
  books _ _ _ := Commits.of_cluster rfl

theorem permits_holds (positions : PartitionMap ℤ) :
    Permits T (Appends Cluster.sent (Frame.Commits positions)) (Frame.Commits positions)
      (@Holds ω positions) where
  calls := (permits_commits T positions).calls
  coordinates := (permits_commits T positions).coordinates
  recv := (permits_commits T positions).recv
  membership := (permits_commits T positions).membership
  listOffsets := (permits_commits T positions).listOffsets
  cluster _ _ h hc := ⟨hc, h⟩
  discardOutstanding := moves_discardOutstanding T
    (fun _ _ _ hc => ⟨hc, Commits.of_cluster rfl⟩) fun addrs => Moves.zoom
      ((permits_commits T positions).recv addrs) fun _ _ h hc => ⟨hc, h⟩
  fetch _ _ _ hc := ⟨hc, Commits.of_cluster rfl⟩
  group _ _ _ _ _ h hc := ⟨hc, h⟩
  books _ _ _ hc := ⟨hc, Commits.of_cluster rfl⟩

theorem oversees_commits (positions : PartitionMap ℤ) :
    Oversees T (Appends Cluster.sent (Frame.Commits positions)) (Frame.Commits positions)
      (@Commits ω positions) where
  toAttends := (permits_commits T positions).toAttends
  within _ _ hcluster _ _ _ := Commits.of_cluster hcluster

/-- A commit sends the positions the consumer has. -/
theorem holds_commit (positions : PartitionMap ℤ) : Moves (@Holds ω positions) (commit T) := by
  have hholds := permits_holds T positions
  refine Moves.bind hholds.discardOutstanding fun _ => Moves.bind_get fun c hc => ?_
  refine hholds.onGroup _ (ClassicProtocol.via_commit hholds.coordinates ?_) c hc
  intro g req hreq f hf made hmade
  -- The request is the one made from the positions at this moment.
  cases hreq
  rw [hf] at hmade
  cases hmade
  rw [hc]

/-- The membership part of a poll commits before it may move a position. -/
theorem commits_keepMembership (c : Consumer ω) :
    Commits c.positions c (keepMembership T c).2 := by
  have hholds := permits_holds T c.positions
  have hchecked := hholds.checkForExpansion c rfl
  rw [keepMembership]
  rcases hcheck : checkForExpansion T c with ⟨e | _, c₁⟩
  · rw [hcheck] at hchecked
    rw [bind_of_error hcheck]
    exact hchecked.2
  · rw [hcheck] at hchecked
    rw [bind_of_ok hcheck, bind_of_ok (get_apply c₁)]
    split
    · -- the positions are still those of the call when the commit is sent
      have hcommitted := hholds.maybeAutoCommit (holds_commit T c.positions) c₁ hchecked.1
      refine trans_of (Commits c.positions) hchecked.2 ?_
      refine moves_bind_at hcommitted.2 fun _ c₂ _ => ?_
      refine Moves.bind (oversees_commits T c.positions).advanceGroup (fun changed => ?_) c₂
      exact Moves.ite (oversees_commits T c.positions).discardOutstanding (Moves.pure _)
    · exact hchecked.2

theorem commits_sendFetches (positions : PartitionMap ℤ) (c : Consumer ω)
    (byBroker : Std.TreeMap String (List TopicPartition)) :
    Commits positions c (sendFetches T (c.planned byBroker) [] c).2 := by
  refine (permits_commits T positions).sendFetches (fun entry _ => ?_) [] c
  refine (Cluster.carries_appends fun _ => Frame.commits_of_isPlumbing positions).sendAt T ?_ _
  intro f hf req hreq
  rw [hf] at hreq
  cases hreq

theorem commits_poll (c : Consumer ω) : Commits c.positions c (poll T D c).2 := by
  have hpermits := permits_commits T c.positions
  refine moves_bind_at (commits_keepMembership T c) fun _ c₁ _ => ?_
  refine Moves.bind Moves.get (fun c₂ => ?_) c₁
  refine Moves.ite (Moves.pure _) ?_
  refine Moves.bind (hpermits.collect (commits_sendFetches T _)) fun answers => ?_
  refine Moves.bind (moves_absorb D (fun _ _ _ => Commits.of_cluster rfl)
    (fun _ _ => Commits.of_cluster rfl) answers []) fun out => ?_
  refine Moves.bind (hpermits.startPrefetch (commits_sendFetches T _)) fun _ => ?_
  exact Moves.bind (Moves.modify fun _ => Commits.of_cluster rfl) fun _ => Moves.pure _

/-- Whatever a call commits are the positions it was made at. -/
theorem commits_step (c : Consumer ω) (call : Call) :
    Commits c.positions c (call.step T D c) := by
  have hage : ∀ (c' : Consumer ω) age, Commits c.positions c'
      { c' with cluster := { c'.cluster with metadataMaxAge := age } } := fun _ _ => .of_eq rfl
  by_cases hcommit : call = .commit
  · subst hcommit
    exact (holds_commit T c.positions c rfl).2
  · by_cases hpoll : call = .poll
    · subst hpoll
      exact moves_bind_at (commits_poll T c) fun _ c' _ => refl_of (Commits c.positions) c'
    · exact (oversees_commits T c.positions).exec D hage call (fun h => absurd h hcommit)
        (fun h => absurd h hpoll) c

/-- A run whose polls are spared stays truthful, at every point of it. -/
theorem truthful_run {c₀ : Consumer ω} (htruthful : Truthful D c₀) (calls : List Call)
    (hpolls : ∀ pre, pre ++ [.poll] <+: calls → ∀ answers c,
      ask T (run (Call.step T D) c₀ pre) = (.ok answers, c) →
        FromLogs D answers c ∧ Spares D answers c) :
    Truthful D (run (Call.step T D) c₀ calls) := by
  refine run_induction_of_prefix (I := fun _ c => Truthful D c) htruthful calls
    fun pre call hpre h => ?_
  by_cases hcall : call = .poll
  · subst hcall
    rw [show Call.step T D _ .poll = (poll T D _).2 from bind_pure_snd (poll T D) () _]
    exact truthful_poll T h (hpolls pre hpre)
  · refine truthful_of_takings ?_ h
    exact (manages_takings T).exec D (fun _ _ => rfl) call (fun hpoll => absurd hpoll hcall) _

/-- A member that starts one partition at what the group last committed, and is to commit at
every poll. -/
def committing : Consumer Tape :=
  let joining := (subscribe Tape.transport "g" ["t"] rangeAssignor earliest (fromCluster
    (.new (.of [.apiVersions ⟨0, []⟩, .findCoordinator ⟨0, "c", 1⟩, .apiVersions ⟨0, []⟩,
      .joinGroup ⟨0, 1, "l", "m", []⟩, .syncGroup ⟨0, [0, 2, 0]⟩,
      .offsetFetch ⟨0, [("t", [⟨0, 5, 0⟩])]⟩,
      .metadata ⟨[⟨1, "b", 1⟩], 1, [⟨0, some "t", [⟨0, 0, 1⟩]⟩]⟩,
      .offsetCommit [("t", [(0, 0)])], .heartbeat 0, .fetch ⟨0, 7, [("t", [brought])]⟩,
      .offsetCommit [("t", [(0, 0)])]]) ["b:1"] "client") .readCommitted)).2
  setPrefetch false (setAutoCommit (some 0) (heartbeat Tape.transport joining).2)

/-- What it commits of its partition. -/
def committedAt (offset : ℤ) : Request :=
  .offsetCommit ⟨"g", 1, "m", [("t", [(0, offset)])]⟩

theorem spares_committing {answers : List Answered} {c : Consumer Tape}
    (hask : ask Tape.transport committing = (.ok answers, c)) :
    FromLogs plainDecoders answers c ∧ Spares plainDecoders answers c := by
  let answered : Answered := (("b:1", [⟨"t", 0⟩]), .ok ⟨0, 7, [("t", [brought])]⟩)
  obtain ⟨hanswers, hisolation, hspares⟩ : (ask Tape.transport committing).1 = .ok [answered] ∧
      (ask Tape.transport committing).2.isolation = .readCommitted ∧
      (surveyOf plainDecoders [answered] (ask Tape.transport committing).2).2 = none := by
    decide +kernel
  have hentries : [answered].flatMap entriesOf = [.ok (⟨"t", 0⟩, brought)] := by rfl
  rw [hask] at hanswers hisolation hspares
  obtain rfl := Except.ok.inj hanswers
  refine ⟨fun tp part bytes hmem hbytes => ?_, .inl hspares⟩
  rw [hentries] at hmem
  rw [show c.isolation = .readCommitted from hisolation]
  obtain ⟨-, rfl⟩ := Prod.mk.inj (Except.ok.inj (List.mem_singleton.mp hmem))
  obtain rfl := Option.some.inj hbytes
  exact ofLog_brought

end Consumer

end Barnabas.Client
