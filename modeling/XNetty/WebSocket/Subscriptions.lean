import XNetty.Lib.Ledger
import XNetty.WebSocket.TopicTree

/-!
# The topic tree refines a subscription relation

What the tree is for: it keeps a relation between subscribers and topic names. Every call
acts on the pointers as it acts on the relation, and every answer is read off the relation.

## Main definitions

* `Subscriptions` — the live subscribers and the relation.
* `Subscriptions.Answers` — what each call returns, in terms of the relation.
* `TopicTree.Refines` — the pointers spell out the relation.
* `TopicTree.PublishAgrees` — `publishBig` does what `publish` does.
-/

namespace XNetty.WebSocket

structure Subscriptions where
  live : Finset SubscriberPtr := ∅
  rel : Finset (SubscriberPtr × Bytes) := ∅

/-- A call of the tree. A call that allocates carries the cell the allocator returns for it. -/
inductive TopicCall where
  | createSubscriber (address : SubscriberPtr)
  | subscribe (s : SubscriberPtr) (topic : Bytes) (address : TopicPtr)
  | unsubscribe (s : SubscriberPtr) (topic : Bytes)
  | freeSubscriber (s : Option SubscriberPtr)
  | lookupTopic (topic : Bytes)
  | publish (sender : Option SubscriberPtr) (topic message : Bytes)

inductive TopicAnswer where
  | subscriber (s : SubscriberPtr)
  | topic (p : Option TopicPtr)
  | unsubscribed (was last : Bool) (count : Int)
  | freed
  | published (deliveries : List Delivery) (referenced : Bool)

namespace Subscriptions

def step (r : Subscriptions) : TopicCall → Subscriptions
  | .createSubscriber s => { r with live := insert s r.live }
  | .subscribe s topic _ => { r with rel := insert (s, topic) r.rel }
  | .unsubscribe s topic => { r with rel := r.rel.erase (s, topic) }
  | .freeSubscriber none => r
  | .freeSubscriber (some s) =>
    { live := r.live.erase s, rel := r.rel.filter fun x => x.1 ≠ s }
  | .lookupTopic _ => r
  | .publish _ _ _ => r

/-- The subscribers of a topic. -/
def subscribers (r : Subscriptions) (topic : Bytes) : Finset SubscriberPtr :=
  (r.rel.filter fun x => x.2 = topic).image Prod.fst

def Answers (r : Subscriptions) : TopicCall → TopicAnswer → Prop
  | .createSubscriber address, .subscriber s => s = address
  | .subscribe s topic _, .topic p => p = none ↔ (s, topic) ∈ r.rel
  | .unsubscribe s topic, .unsubscribed was last count =>
    if (s, topic) ∈ r.rel then
      let left := r.step (.unsubscribe s topic)
      was = true ∧ (last = true ↔ ∀ n, (s, n) ∉ left.rel) ∧
        count = (left.subscribers topic).card
    else was = false ∧ last = false ∧ count = -1
  | .freeSubscriber _, .freed => True
  | .lookupTopic topic, .topic p => p.isSome ↔ ∃ s, (s, topic) ∈ r.rel
  | .publish sender topic message, .published deliveries referenced =>
    (deliveries.map Delivery.subscriber).Nodup ∧
      (∀ d, d ∈ deliveries ↔ ∃ s, d = { subscriber := s, message, flags := FIRST ||| LAST } ∧
        (s, topic) ∈ r.rel ∧ sender ≠ some s) ∧
      (referenced = true ↔ ∃ s, (s, topic) ∈ r.rel ∧ sender ≠ some s)
  | _, _ => False

@[simp] theorem mem_subscribers (r : Subscriptions) (topic : Bytes) (s : SubscriberPtr) :
    s ∈ r.subscribers topic ↔ (s, topic) ∈ r.rel := by
  simp [subscribers]

end Subscriptions

namespace TopicTree

def step (tree : TopicTree) : TopicCall → TopicTree × TopicAnswer
  | .createSubscriber address =>
    ((tree.createSubscriber address).1, .subscriber (tree.createSubscriber address).2)
  | .subscribe s topic address =>
    ((tree.subscribe s topic address).1, .topic (tree.subscribe s topic address).2)
  | .unsubscribe s topic =>
    let (tree, was, last, count) := tree.unsubscribe s topic
    (tree, .unsubscribed was last count)
  | .freeSubscriber s => (tree.freeSubscriber s, .freed)
  | .lookupTopic topic => (tree, .topic (tree.lookupTopic topic))
  | .publish sender topic message =>
    (tree, .published (tree.publish sender topic message).1 (tree.publish sender topic message).2)

/-- The caller names a live subscriber, and the allocator returns a cell that is not in use. -/
def Allowed (tree : TopicTree) : TopicCall → Prop
  | .createSubscriber address => tree.subscriberAt address = none
  | .subscribe s _ address => (tree.subscriberAt s).isSome ∧ tree.topicAt address = none
  | .unsubscribe s _ => (tree.subscriberAt s).isSome
  | .freeSubscriber s => ∀ t ∈ s, (tree.subscriberAt t).isSome
  | .lookupTopic _ => True
  | .publish _ _ _ => True

structure WellFormed (tree : TopicTree) : Prop extends Linked tree where
  inhabited : tree.Inhabited

/-- The pointers spell out the relation. -/
structure Refines (tree : TopicTree) (r : Subscriptions) : Prop where
  wellFormed : tree.WellFormed
  live : ∀ s, s ∈ r.live ↔ (tree.subscriberAt s).isSome
  rel : ∀ s n, (s, n) ∈ r.rel ↔ tree.Subscribed s n

theorem refines_empty : Refines {} {} where
  wellFormed := ⟨linked_empty, by simp [Inhabited]⟩
  live := by simp
  rel := by simp [Subscribed]

variable {tree : TopicTree} {r : Subscriptions} {s : SubscriberPtr} {S : Subscriber}
  {p : TopicPtr} {T : Topic}

theorem WellFormed.subscribed_of_topics (h : tree.WellFormed) {topic : Bytes}
    (hp : tree.topics topic = some p) : ∃ t, tree.Subscribed t topic := by
  obtain ⟨T, hT, -⟩ := h.named topic p hp
  obtain ⟨t, ht⟩ := List.exists_mem_of_ne_nil _ (h.inhabited p T hT)
  exact ⟨t, p, hp, T, hT, ht⟩

theorem subscribed_iff_mem {topic : Bytes} (hp : tree.topics topic = some p)
    (hT : tree.topicAt p = some T) (t : SubscriberPtr) :
    tree.Subscribed t topic ↔ t ∈ T.members := by
  simp [Subscribed, hp, Member, hT]

theorem Linked.subscribed_iff_follows (h : tree.Linked) {topic : Bytes}
    (hp : tree.topics topic = some p) (hs : tree.subscriberAt s = some S) :
    tree.Subscribed s topic ↔ p ∈ S.topics := by
  have hmirror := h.mirror p s
  simp only [Follows, hs, Option.some.injEq, exists_eq_left'] at hmirror
  simp [Subscribed, hp, hmirror]

/-! ### subscribe -/

theorem link_inhabited (hT : tree.topicAt p = some T)
    (h : ∀ q T, q ≠ p → tree.topicAt q = some T → T.members ≠ []) :
    (tree.link s S p).Inhabited := by
  intro q T' hq
  by_cases hqp : q = p
  · obtain rfl : { T with members := T.members.insert s } = T' := by
      simpa [hqp, hT] using hq
    exact List.ne_nil_of_mem (List.mem_insert_self)
  · exact h q T' hqp (by simpa [hqp] using hq)

/-- The topic a subscription goes to, and the tree that holds it. -/
theorem WellFormed.subscribe_cases (h : tree.WellFormed) (hs : tree.subscriberAt s = some S)
    (topic : Bytes) {address : TopicPtr} (haddress : tree.topicAt address = none) :
    tree.Subscribed s topic ∧ tree.subscribe s topic address = (tree, none) ∨
      ¬ tree.Subscribed s topic ∧ ∃ p, (tree.subscribe s topic address).2 = some p ∧
        (tree.subscribe s topic address).1.WellFormed ∧
        (∀ t, ((tree.subscribe s topic address).1.subscriberAt t).isSome ↔
          (tree.subscriberAt t).isSome) ∧
        ∀ t n, (tree.subscribe s topic address).1.Subscribed t n ↔
          tree.Subscribed t n ∨ t = s ∧ n = topic := by
  have hlive : ∀ (tree' : TopicTree) p t, tree'.subscriberAt = tree.subscriberAt →
      (((tree'.link s S p).subscriberAt t).isSome ↔ (tree.subscriberAt t).isSome) := by
    intro tree' p t heq
    by_cases ht : t = s
    · simp [ht, hs]
    · simp [ht, heq]
  cases hp : tree.topics topic with
  | some p =>
    obtain ⟨T, hT, rfl⟩ := h.named topic p hp
    rw [h.subscribed_iff_follows hp hs]
    by_cases hmem : p ∈ S.topics
    · exact .inl ⟨hmem, by simp [subscribe, hp, hs, hmem]⟩
    · refine .inr ⟨hmem, p, by simp [subscribe, hp, hs, hmem], ?_⟩
      have htree : (tree.subscribe s T.name address).1 = tree.link s S p := by
        simp [subscribe, hp, hs, hmem]
      rw [htree]
      exact ⟨⟨h.link hs hT hmem, link_inhabited hT fun q T' _ => h.inhabited q T'⟩,
        fun t => hlive tree p t rfl, h.link_subscribed hT⟩
  | none =>
    have hnot : ¬ tree.Subscribed s topic := by simp [Subscribed, hp]
    -- the new cell is in no subscriber's set, as no pointer dangles
    have hmem : address ∉ S.topics := by
      intro hin
      have := h.noDangling.follows s address ⟨S, hs, hin⟩
      simp [haddress] at this
    have hlinked := h.toLinked.newTopic hp haddress
    have hs' : (tree.newTopic topic address).subscriberAt s = some S := hs
    have hT : (tree.newTopic topic address).topicAt address = some { name := topic } := by simp
    have htree : (tree.subscribe s topic address).1 =
        (tree.newTopic topic address).link s S address := by
      simp [subscribe, hp, hs, hmem]
    refine .inr ⟨hnot, address, by simp [subscribe, hp, hs, hmem], ?_⟩
    rw [htree]
    refine ⟨⟨hlinked.link hs' hT hmem, link_inhabited hT fun q T hq hqT => ?_⟩,
      fun t => hlive _ address t rfl, fun t n => ?_⟩
    · exact h.inhabited q T (by simpa [hq] using hqT)
    · rw [hlinked.link_subscribed hT, newTopic_subscribed hp haddress]

theorem Refines.subscribe (h : tree.Refines r) {topic : Bytes} {address : TopicPtr}
    (hs : (tree.subscriberAt s).isSome) (haddress : tree.topicAt address = none) :
    r.Answers (.subscribe s topic address) (tree.step (.subscribe s topic address)).2 ∧
      (tree.step (.subscribe s topic address)).1.Refines (r.step (.subscribe s topic address)) := by
  obtain ⟨S, hS⟩ := Option.isSome_iff_exists.mp hs
  rcases h.wellFormed.subscribe_cases hS topic haddress with
    ⟨hin, heq⟩ | ⟨hnot, p, hp, hwf, hlive, hrel⟩
  · have hmem := (h.rel s topic).mpr hin
    simp only [step, heq, Subscriptions.Answers, Subscriptions.step,
      Finset.insert_eq_of_mem hmem]
    exact ⟨by simp [hmem], h⟩
  · constructor
    · simp only [step, hp, Subscriptions.Answers, h.rel, reduceCtorEq, false_iff]
      exact hnot
    · refine ⟨hwf, fun t => (h.live t).trans (hlive t).symm, fun t n => ?_⟩
      refine Iff.trans ?_ (hrel t n).symm
      simp [Subscriptions.step, h.rel, or_comm]

/-! ### unsubscribe -/

theorem WellFormed.unlink (h : tree.WellFormed) (hs : tree.subscriberAt s = some S)
    (hp : p ∈ S.topics) : (tree.unlink s S p).WellFormed :=
  ⟨h.toLinked.unlink hs hp, h.inhabited.unlink h.toLinked hs hp⟩

theorem unlink_live (h : tree.Linked) (hs : tree.subscriberAt s = some S) (hp : p ∈ S.topics)
    (t : SubscriberPtr) :
    ((tree.unlink s S p).subscriberAt t).isSome ↔ (tree.subscriberAt t).isSome := by
  obtain ⟨T, hT, hmem⟩ := h.topicAt_of_follows hs hp
  by_cases ht : t = s
  · simp [TopicTree.unlink, ht, hs]
  · simp [TopicTree.unlink, ht, leave_subscriberAt h hT hmem]

/-- `unsubscribe` updates both sets and returns what they hold afterwards. -/
theorem Linked.unsubscribe_eq (h : tree.Linked) {topic : Bytes} (hp : tree.topics topic = some p)
    (hs : tree.subscriberAt s = some S) (hmem : p ∈ S.topics) (hT : tree.topicAt p = some T) :
    tree.unsubscribe s topic =
      (tree.unlink s S p, true, decide ((S.topics.erase p).length = 0),
        ((T.members.erase s).length : Int)) := by
  obtain ⟨T', hT', hin⟩ := h.topicAt_of_follows hs hmem
  obtain rfl : T = T' := by simpa [hT] using hT'
  obtain rfl : topic = T.name := (h.topics_eq_some_iff hT).mp hp
  have hlast : (T.members.erase s).length = 0 ↔ T.members = [s] := by
    rw [List.length_eq_zero_iff, List.erase_eq_nil_iff]
    constructor
    · rintro (hnil | hone)
      · simp [hnil] at hin
      · exact hone
    · exact .inr
  have hsize : ∀ v, ((tree.setSubscriber s v).eraseMember p s).size p =
      (T.members.erase s).length := by
    intro v
    simp [size, hT]
  simp only [unsubscribe, hp, hs, hmem, if_true, hsize, Prod.mk.injEq, and_true, hlast]
  rw [TopicTree.unlink, leave_eq h hT hin]
  by_cases hone : T.members = [s]
  · have hname : ∀ v, ((tree.setSubscriber s v).eraseMember p s).topics T.name = some p :=
      fun _ => hp
    simp only [hone, if_true, eraseTopic, hname]
    simp [setTopics, setTopic, setSubscriber, eraseMember]
  · simp only [hone, if_false]
    rfl

theorem Refines.card_members (h : tree.Refines r) {topic : Bytes}
    (hp : tree.topics topic = some p) (hT : tree.topicAt p = some T) :
    (r.subscribers topic).card = T.members.length := by
  have heq : r.subscribers topic = T.members.toFinset := by
    ext t
    rw [Subscriptions.mem_subscribers, h.rel, subscribed_iff_mem hp hT, List.mem_toFinset]
  rw [heq, List.toFinset_card_of_nodup (h.wellFormed.members_nodup p T hT)]

theorem Refines.unlink (h : tree.Refines r) (hs : tree.subscriberAt s = some S)
    (hp : p ∈ S.topics) (hT : tree.topicAt p = some T) :
    (tree.unlink s S p).Refines (r.step (.unsubscribe s T.name)) where
  wellFormed := h.wellFormed.unlink hs hp
  live t := (h.live t).trans (unlink_live h.wellFormed.toLinked hs hp t).symm
  rel t n := by
    rw [h.wellFormed.toLinked.unlink_subscribed hs hp hT, ← h.rel]
    simp only [Subscriptions.step, Finset.mem_erase, Prod.mk.injEq, ne_eq]
    exact and_comm

theorem Linked.topics_eq_nil_iff (h : tree.Linked) (hs : tree.subscriberAt s = some S) :
    S.topics = [] ↔ ∀ n, ¬ tree.Subscribed s n := by
  constructor
  · rintro hnil n ⟨p, -, hmember⟩
    obtain ⟨S', hS', hmem⟩ := (h.mirror p s).mp hmember
    obtain rfl : S = S' := by simpa [hs] using hS'
    simp [hnil] at hmem
  · intro hnone
    refine List.eq_nil_iff_forall_not_mem.mpr fun p hp => ?_
    obtain ⟨T, hT, hmem⟩ := h.topicAt_of_follows hs hp
    exact hnone T.name ⟨p, h.listed p T hT, T, hT, hmem⟩

/-- What is left of a topic after a subscriber has left it. -/
theorem Refines.card_unlink (h : tree.Refines r) (hs : tree.subscriberAt s = some S)
    (hp : p ∈ S.topics) (hT : tree.topicAt p = some T) :
    ((r.step (.unsubscribe s T.name)).subscribers T.name).card = (T.members.erase s).length := by
  have hleft := h.unlink hs hp hT
  have hlinked := h.wellFormed.toLinked
  obtain ⟨T', hT', hmem⟩ := hlinked.topicAt_of_follows hs hp
  obtain rfl : T = T' := by simpa [hT] using hT'
  by_cases hone : T.members = [s]
  · have hempty : (r.step (.unsubscribe s T.name)).subscribers T.name = ∅ := by
      refine Finset.eq_empty_of_forall_notMem fun t ht => ?_
      rw [Subscriptions.mem_subscribers, hleft.rel, hlinked.unlink_subscribed hs hp hT,
        subscribed_iff_mem (hlinked.listed p T hT) hT, hone] at ht
      simp at ht
    simp [hempty, hone]
  · have hcell : (tree.unlink s S p).topicAt p =
        some { T with members := T.members.erase s } :=
      (leave_topicAt hlinked hT hmem p).trans (by simp [hone])
    have hname : (tree.unlink s S p).topics T.name = some p :=
      (leave_topics hlinked hT hmem T.name).trans (by simp [hone, hlinked.listed p T hT])
    exact hleft.card_members hname hcell

theorem Refines.unsubscribe (h : tree.Refines r) {topic : Bytes}
    (hs : (tree.subscriberAt s).isSome) :
    r.Answers (.unsubscribe s topic) (tree.step (.unsubscribe s topic)).2 ∧
      (tree.step (.unsubscribe s topic)).1.Refines (r.step (.unsubscribe s topic)) := by
  obtain ⟨S, hS⟩ := Option.isSome_iff_exists.mp hs
  have hlinked := h.wellFormed.toLinked
  by_cases hin : (s, topic) ∈ r.rel
  · obtain ⟨p, hp, T, hT, hmember⟩ := (h.rel s topic).mp hin
    have hmem : p ∈ S.topics := (hlinked.subscribed_iff_follows hp hS).mp ((h.rel s topic).mp hin)
    obtain rfl : topic = T.name := (hlinked.topics_eq_some_iff hT).mp hp
    have hleft := h.unlink hS hmem hT
    have hcell : (tree.unlink s S p).subscriberAt s =
        some { S with topics := S.topics.erase p } := by simp [TopicTree.unlink]
    have hlast := hleft.wellFormed.toLinked.topics_eq_nil_iff hcell
    rw [step, hlinked.unsubscribe_eq hp hS hmem hT]
    refine ⟨?_, hleft⟩
    simp only [Subscriptions.Answers, hin, if_true, decide_eq_true_eq, List.length_eq_zero_iff,
      true_and, hleft.rel, h.card_unlink hS hmem hT]
    exact ⟨hlast, trivial⟩
  · have hnone : tree.unsubscribe s topic = (tree, false, false, -1) := by
      cases hp : tree.topics topic with
      | none => simp [TopicTree.unsubscribe, hp]
      | some p =>
        have hmem : p ∉ S.topics := fun hmem =>
          hin ((h.rel s topic).mpr ((hlinked.subscribed_iff_follows hp hS).mpr hmem))
        simp [TopicTree.unsubscribe, hp, hS, hmem]
    rw [step, hnone]
    refine ⟨by simp [Subscriptions.Answers, hin], ?_⟩
    rwa [Subscriptions.step, Finset.erase_eq_of_notMem hin]

/-! ### freeSubscriber -/

theorem leave_setSubscriber (v : Option Subscriber) (q : TopicPtr) :
    (tree.setSubscriber s v).leave s q = (tree.leave s q).setSubscriber s v := by
  unfold leave eraseTopic size
  cases hq : tree.topicAt q with
  | none => simp [hq]
  | some T =>
    simp only [setSubscriber_topicAt, setSubscriber_topics, hq]
    split
    · cases tree.topics T.name <;> rfl
    · rfl

@[simp] theorem setSubscriber_setSubscriber (v v' : Option Subscriber) :
    (tree.setSubscriber s v).setSubscriber s v' = tree.setSubscriber s v' := by
  simp [setSubscriber]

@[simp] theorem setSubscriber_subscribed (v : Option Subscriber) (t : SubscriberPtr) (n : Bytes) :
    (tree.setSubscriber s v).Subscribed t n ↔ tree.Subscribed t n := Iff.rfl

/-- The loop of `freeSubscriber`, seen as the subscriber leaving one topic after the other. -/
theorem foldl_leave (ps : List TopicPtr)
    (h : (tree.setSubscriber s (some { topics := ps })).WellFormed) :
    let final := (ps.foldl (fun tree p => tree.leave s p) tree).setSubscriber s (some {})
    final.WellFormed ∧
      (∀ t, t ≠ s → ((final.subscriberAt t).isSome ↔ (tree.subscriberAt t).isSome)) ∧
      ∀ t n, t ≠ s → (final.Subscribed t n ↔ tree.Subscribed t n) := by
  induction ps generalizing tree with
  | nil =>
    refine ⟨h, fun t ht => ?_, fun t n _ => Iff.rfl⟩
    simp [ht]
  | cons p ps ih =>
    have hcell : (tree.setSubscriber s (some { topics := p :: ps })).subscriberAt s =
        some { topics := p :: ps } := by simp
    have hp : p ∈ p :: ps := List.mem_cons_self
    obtain ⟨T, hT, -⟩ := h.toLinked.topicAt_of_follows hcell hp
    have hunlink : (tree.setSubscriber s (some { topics := p :: ps })).unlink s
        { topics := p :: ps } p = (tree.leave s p).setSubscriber s (some { topics := ps }) := by
      simp [TopicTree.unlink, leave_setSubscriber]
    have hwf := h.unlink hcell hp
    rw [hunlink] at hwf
    obtain ⟨hfinal, hlive, hrel⟩ := ih hwf
    refine ⟨hfinal, fun t ht => (hlive t ht).trans ?_, fun t n ht => (hrel t n ht).trans ?_⟩
    · have hone := unlink_live h.toLinked hcell hp t
      rw [hunlink] at hone
      simpa [ht] using hone
    · have hone := h.toLinked.unlink_subscribed hcell hp hT t n
      rw [hunlink] at hone
      simpa [ht, Subscribed, Member] using hone

theorem WellFormed.setSubscriber_none (h : tree.WellFormed)
    (hs : tree.subscriberAt s = some {}) : (tree.setSubscriber s none).WellFormed where
  toLinked := h.toLinked.setSubscriber_unlinked (by simp [hs]) (by simp)
  inhabited := h.inhabited

theorem Refines.freeSubscriber (h : tree.Refines r) (hs : (tree.subscriberAt s).isSome) :
    (tree.freeSubscriber (some s)).Refines (r.step (.freeSubscriber (some s))) := by
  obtain ⟨S, hS⟩ := Option.isSome_iff_exists.mp hs
  have hsame : tree.setSubscriber s (some { topics := S.topics }) = tree := by
    simp [setSubscriber, ← hS]
  obtain ⟨hwf, hlive, hrel⟩ := foldl_leave S.topics (by rw [hsame]; exact h.wellFormed)
  have hfree : tree.freeSubscriber (some s) =
      ((S.topics.foldl (fun tree p => tree.leave s p) tree).setSubscriber s
        (some {})).setSubscriber s none := by
    simp [TopicTree.freeSubscriber, hS]
  have hcell : ((S.topics.foldl (fun tree p => tree.leave s p) tree).setSubscriber s
      (some {})).subscriberAt s = some {} := by simp
  rw [hfree]
  refine ⟨hwf.setSubscriber_none hcell, fun t => ?_, fun t n => ?_⟩
  · by_cases ht : t = s
    · simp [Subscriptions.step, ht]
    · have := hlive t ht
      simp_all [Subscriptions.step, h.live]
  · by_cases ht : t = s
    · subst ht
      have hnone := (hwf.toLinked.topics_eq_nil_iff hcell).mp rfl n
      simpa [Subscriptions.step] using hnone
    · simpa [Subscriptions.step, ht, h.rel] using (hrel t n ht).symm

/-! ### lookupTopic and publish -/

theorem Refines.topics_isSome (h : tree.Refines r) (topic : Bytes) :
    (tree.topics topic).isSome ↔ ∃ s, (s, topic) ∈ r.rel := by
  constructor
  · intro hsome
    obtain ⟨p, hp⟩ := Option.isSome_iff_exists.mp hsome
    obtain ⟨t, ht⟩ := h.wellFormed.subscribed_of_topics hp
    exact ⟨t, (h.rel t topic).mpr ht⟩
  · rintro ⟨s, hs⟩
    obtain ⟨p, hp, -⟩ := (h.rel s topic).mp hs
    simp [hp]

theorem Refines.publish (h : tree.Refines r) (sender : Option SubscriberPtr)
    (topic message : Bytes) :
    r.Answers (.publish sender topic message) (tree.step (.publish sender topic message)).2 := by
  cases hp : tree.topics topic with
  | none =>
    have hnone : ∀ s, (s, topic) ∉ r.rel := fun s hs => by
      simpa [hp] using (h.topics_isSome topic).mpr ⟨s, hs⟩
    simp [step, TopicTree.publish, hp, Subscriptions.Answers, hnone]
  | some p =>
    obtain ⟨T, hT, -⟩ := h.wellFormed.named topic p hp
    have hmem : ∀ s, (s, topic) ∈ r.rel ↔ s ∈ T.members := fun s =>
      (h.rel s topic).trans (subscribed_iff_mem hp hT s)
    simp only [step, TopicTree.publish, hp, Option.bind_some, hT, Subscriptions.Answers, hmem]
    refine ⟨?_, fun d => ?_, ?_⟩
    · rw [List.map_map]
      simpa [Function.comp_def] using (h.wellFormed.members_nodup p T hT).filter _
    · simp only [List.mem_map, List.mem_filter, decide_eq_true_eq]
      constructor
      · rintro ⟨s, hs, rfl⟩
        exact ⟨s, rfl, hs⟩
      · rintro ⟨s, rfl, hs⟩
        exact ⟨s, hs, rfl⟩
    · simp [List.filter_eq_nil_iff]

/-! ### publishBig -/

/-- `publishBig` calls its function where `publish` calls the callback, once each, and returns
what `publish` returns. -/
structure PublishAgrees (tree : TopicTree) (sender : Option SubscriberPtr)
    (topic message : Bytes) : Prop where
  once : ((tree.publishBig sender topic message).1.map Prod.fst).Nodup
  called : ∀ s, s ∈ (tree.publishBig sender topic message).1.map Prod.fst ↔
    s ∈ (tree.publish sender topic message).1.map Delivery.subscriber
  result : (tree.publishBig sender topic message).2 = (tree.publish sender topic message).2

/-- The same subscribers, in the same order and with the same message. -/
theorem publishBig_fst (tree : TopicTree) (sender : Option SubscriberPtr)
    (topic message : Bytes) :
    (tree.publishBig sender topic message).1 =
      (tree.publish sender topic message).1.map fun d => (d.subscriber, d.message) := by
  cases hfound : (tree.topics topic).bind tree.topicAt with
  | none => simp [TopicTree.publishBig, TopicTree.publish, hfound]
  | some found => simp [TopicTree.publishBig, TopicTree.publish, hfound, Function.comp_def]

/-- `publishBig` tells whether there is a topic, its sender counted. -/
theorem Refines.publishBig_snd (h : tree.Refines r) (sender : Option SubscriberPtr)
    (topic message : Bytes) :
    (tree.publishBig sender topic message).2 = true ↔ ∃ s, (s, topic) ∈ r.rel := by
  rw [← h.topics_isSome topic]
  cases hp : tree.topics topic with
  | none => simp [TopicTree.publishBig, hp]
  | some p =>
    obtain ⟨T, hT, -⟩ := h.wellFormed.named topic p hp
    simp [TopicTree.publishBig, hp, hT]

/-- The results differ for a topic that nobody but the sender is subscribed to. -/
theorem Refines.publishBig_snd_eq_iff (h : tree.Refines r) (sender : Option SubscriberPtr)
    (topic message : Bytes) :
    (tree.publishBig sender topic message).2 = (tree.publish sender topic message).2 ↔
      ∀ s ∈ sender, r.subscribers topic ≠ {s} := by
  obtain ⟨-, -, hreferenced⟩ := h.publish sender topic message
  rw [Bool.eq_iff_iff, h.publishBig_snd, hreferenced]
  constructor
  · rintro hiff s rfl honly
    have hs : (s, topic) ∈ r.rel := by
      rw [← Subscriptions.mem_subscribers, honly]
      exact Finset.mem_singleton_self s
    obtain ⟨t, ht, hne⟩ := hiff.mp ⟨s, hs⟩
    rw [← Subscriptions.mem_subscribers, honly, Finset.mem_singleton] at ht
    exact hne (congrArg some ht.symm)
  · intro honly
    refine ⟨?_, fun ⟨t, ht, _⟩ => ⟨t, ht⟩⟩
    rintro ⟨t, ht⟩
    by_cases hsender : sender = some t
    · -- The sender is subscribed, so that somebody else is.
      have hother := honly t hsender
      have hmem := (Subscriptions.mem_subscribers r topic t).mpr ht
      obtain ⟨u, hu, hne⟩ : ∃ u ∈ r.subscribers topic, u ≠ t := by
        by_contra hnone
        push Not at hnone
        exact hother (Finset.eq_singleton_iff_unique_mem.mpr ⟨hmem, hnone⟩)
      refine ⟨u, (Subscriptions.mem_subscribers r topic u).mp hu, ?_⟩
      rw [hsender]
      exact fun heq => hne (Option.some.inj heq).symm
    · exact ⟨t, ht, hsender⟩

theorem Refines.publishAgrees_iff (h : tree.Refines r) (sender : Option SubscriberPtr)
    (topic message : Bytes) :
    tree.PublishAgrees sender topic message ↔ ∀ s ∈ sender, r.subscribers topic ≠ {s} := by
  have hfst : (tree.publishBig sender topic message).1.map Prod.fst =
      (tree.publish sender topic message).1.map Delivery.subscriber := by
    rw [publishBig_fst, List.map_map, Function.comp_def]
  obtain ⟨hnodup, -, -⟩ := h.publish sender topic message
  rw [← h.publishBig_snd_eq_iff sender topic message]
  constructor
  · exact PublishAgrees.result
  · intro hresult
    refine ⟨?_, fun s => ?_, hresult⟩
    · rw [hfst]
      exact hnodup
    · rw [hfst]

/-! ### Runs -/

def run (tree : TopicTree) (calls : List TopicCall) : TopicTree :=
  calls.foldl (fun tree call => (tree.step call).1) tree

theorem Refines.step (h : tree.Refines r) {call : TopicCall} (hallowed : tree.Allowed call) :
    r.Answers call (tree.step call).2 ∧ (tree.step call).1.Refines (r.step call) := by
  cases call with
  | createSubscriber address =>
    refine ⟨rfl, ⟨h.wellFormed.toLinked.setSubscriber_empty hallowed, h.wellFormed.inhabited⟩,
      fun t => ?_, h.rel⟩
    by_cases ht : t = address
    · simp [ht, Subscriptions.step, TopicTree.step, TopicTree.createSubscriber]
    · simp [ht, Subscriptions.step, TopicTree.step, TopicTree.createSubscriber, h.live]
  | subscribe s topic address => exact h.subscribe hallowed.1 hallowed.2
  | unsubscribe s topic => exact h.unsubscribe hallowed
  | freeSubscriber s =>
    cases s with
    | none => exact ⟨trivial, h⟩
    | some s => exact ⟨trivial, h.freeSubscriber (hallowed s rfl)⟩
  | lookupTopic topic => exact ⟨h.topics_isSome topic, h⟩
  | publish sender topic message => exact ⟨h.publish sender topic message, h⟩

theorem Refines.run (h : tree.Refines r) {calls : List TopicCall}
    (hallowed : Ledger.Along (fun tree call => (TopicTree.step tree call).1) Allowed tree calls) :
    (tree.run calls).Refines (calls.foldl Subscriptions.step r) := by
  induction calls generalizing tree r with
  | nil => exact h
  | cons call calls ih => exact ih (h.step hallowed.1).2 hallowed.2

/-- **Refinement.** After any sequence of calls on an empty tree, no pointer dangles, and
there is a relation between the live subscribers and the topic names, kept as each call says,
from which every next call's answer is read off. -/
theorem run_refines (calls : List TopicCall)
    (h : Ledger.Along (fun tree call => (TopicTree.step tree call).1) Allowed {} calls) :
    let tree := run {} calls
    let r := calls.foldl Subscriptions.step {}
    tree.NoDangling ∧ (∀ s, s ∈ r.live ↔ (tree.subscriberAt s).isSome) ∧
      (∀ s n, (s, n) ∈ r.rel → s ∈ r.live) ∧
      ∀ call, tree.Allowed call → r.Answers call (tree.step call).2 := by
  have hrefines := refines_empty.run h
  have hsafe := hrefines.wellFormed.noDangling
  refine ⟨hsafe, hrefines.live, fun s n hs => ?_, fun call hcall => (hrefines.step hcall).1⟩
  obtain ⟨p, -, hmember⟩ := (hrefines.rel s n).mp hs
  exact (hrefines.live s).mpr (hsafe.members p s hmember)

/-- Two subscribers of one topic, the first of which leaves. -/
def twoSubscribers : List TopicCall :=
  [.createSubscriber 1, .createSubscriber 2, .subscribe 1 (ascii "chat") 7,
    .subscribe 2 (ascii "chat") 8, .freeSubscriber (some 1)]

theorem run_refines_twoSubscribers :
    (run {} twoSubscribers).NoDangling ∧
      ((run {} twoSubscribers).step (.unsubscribe 2 (ascii "chat"))).2 =
        .unsubscribed true true 0 := by
  have hallowed : Ledger.Along (fun tree call => (TopicTree.step tree call).1) Allowed {}
      twoSubscribers := by
    refine ⟨rfl, rfl, ⟨rfl, rfl⟩, ⟨rfl, rfl⟩, ?_, trivial⟩
    rintro t ⟨⟩
    rfl
  exact ⟨(run_refines twoSubscribers hallowed).1, rfl⟩

/-- **`publishBig` agrees with `publish`**, after any sequence of calls on an empty tree, exactly
where the sender is not the topic's only subscriber. -/
theorem publishAgrees_run_iff (calls : List TopicCall)
    (h : Ledger.Along (fun tree call => (TopicTree.step tree call).1) Allowed {} calls)
    (sender : Option SubscriberPtr) (topic message : Bytes) :
    (run {} calls).PublishAgrees sender topic message ↔
      ∀ s ∈ sender, (calls.foldl Subscriptions.step {}).subscribers topic ≠ {s} :=
  (refines_empty.run h).publishAgrees_iff sender topic message

/-- One subscriber, that then publishes to its own topic. -/
def onlySender : List TopicCall := [.createSubscriber 1, .subscribe 1 (ascii "chat") 7]

theorem allowed_onlySender :
    Ledger.Along (fun tree call => (TopicTree.step tree call).1) Allowed {} onlySender :=
  ⟨rfl, ⟨rfl, rfl⟩, trivial⟩

theorem publishAgrees_onlySender :
    (run {} onlySender).PublishAgrees none (ascii "chat") (ascii "hi") :=
  (publishAgrees_run_iff onlySender allowed_onlySender none (ascii "chat") (ascii "hi")).mpr nofun

/-- Nobody is called, and `publishBig` returns true. -/
theorem publishBig_onlySender :
    ¬∀ calls : List TopicCall,
      Ledger.Along (fun tree call => (TopicTree.step tree call).1) Allowed {} calls →
        ∀ sender topic message, (run {} calls).PublishAgrees sender topic message := by
  intro h
  have hresult := (h onlySender allowed_onlySender (some 1) (ascii "chat") (ascii "hi")).result
  exact absurd hresult (by decide +kernel)

end TopicTree

end XNetty.WebSocket
