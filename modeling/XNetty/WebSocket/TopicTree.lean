import XNetty.Buffer.ByteBuf

/-!
# The topic tree

Topics and subscribers are objects of the heap that point at each other: a subscriber holds the
set of its topics, a topic the set of its subscribers, and the tree owns the topics under their
names. Sets of pointers are lists without repetition; the order a set is walked in is the
order of its list. Nothing in the sources sets `iteratingSubscriber` or queues messages for a
later drain, so these are left out.

## Main definitions

* `TopicTree` — the tree with the objects it allocates.
* `Linked` — the two sets and the names agree, and no pointer dangles.
* `Subscribed` — the relation that the pointers spell out.
-/

namespace XNetty.WebSocket

abbrev SubscriberPtr := Nat

abbrev TopicPtr := Nat

structure Subscriber where
  topics : List TopicPtr := []

structure Topic where
  name : Bytes
  members : List SubscriberPtr := []

/-- The map of the tree and the heap cells of its objects. -/
structure TopicTree where
  topics : Bytes → Option TopicPtr := fun _ => none
  topicAt : TopicPtr → Option Topic := fun _ => none
  subscriberAt : SubscriberPtr → Option Subscriber := fun _ => none

/-- One invocation of the tree's callback. -/
structure Delivery where
  subscriber : SubscriberPtr
  message : Bytes
  flags : Nat
  deriving DecidableEq

/-- `IteratorFlags::LAST` and `IteratorFlags::FIRST` -/
def LAST : Nat := 1

def FIRST : Nat := 2

namespace TopicTree

def setTopics (tree : TopicTree) (name : Bytes) (p : Option TopicPtr) : TopicTree :=
  { tree with topics := Function.update tree.topics name p }

def setTopic (tree : TopicTree) (p : TopicPtr) (topic : Option Topic) : TopicTree :=
  { tree with topicAt := Function.update tree.topicAt p topic }

def setSubscriber (tree : TopicTree) (s : SubscriberPtr) (sub : Option Subscriber) : TopicTree :=
  { tree with subscriberAt := Function.update tree.subscriberAt s sub }

/-- `topics.erase(name)`: the entry goes, and the topic it owns with it. -/
def eraseTopic (tree : TopicTree) (name : Bytes) : TopicTree :=
  match tree.topics name with
  | none => tree
  | some p => (tree.setTopics name none).setTopic p none

def lookupTopic (tree : TopicTree) (topic : Bytes) : Option TopicPtr := tree.topics topic

/-- `new Topic(topic)` at the cell the allocator returns, put under its name. -/
def newTopic (tree : TopicTree) (topic : Bytes) (address : TopicPtr) : TopicTree :=
  (tree.setTopic address (some { name := topic })).setTopics topic (some address)

/-- Both insertions of a subscription. -/
def link (tree : TopicTree) (s : SubscriberPtr) (sub : Subscriber) (p : TopicPtr) : TopicTree :=
  (tree.setSubscriber s (some { sub with topics := p :: sub.topics })).setTopic p
    ((tree.topicAt p).map fun topic => { topic with members := topic.members.insert s })

def subscribe (tree : TopicTree) (s : SubscriberPtr) (topic : Bytes) (address : TopicPtr) :
    TopicTree × Option TopicPtr :=
  let (tree, p) :=
    match tree.topics topic with
    | some p => (tree, p)
    | none => (tree.newTopic topic address, address)
  match tree.subscriberAt s with
  | none => (tree, none)
  | some sub => if p ∈ sub.topics then (tree, none) else (tree.link s sub p, some p)

/-- `t->erase(s)` -/
def eraseMember (tree : TopicTree) (p : TopicPtr) (s : SubscriberPtr) : TopicTree :=
  tree.setTopic p
    ((tree.topicAt p).map fun topic => { topic with members := topic.members.erase s })

/-- `t->size()` -/
def size (tree : TopicTree) (p : TopicPtr) : Nat :=
  ((tree.topicAt p).map fun topic => topic.members.length).getD 0

def unsubscribe (tree : TopicTree) (s : SubscriberPtr) (topic : Bytes) :
    TopicTree × Bool × Bool × Int :=
  match tree.topics topic, tree.subscriberAt s with
  | some p, some sub =>
    if p ∈ sub.topics then
      let sub := { sub with topics := sub.topics.erase p }
      let tree := (tree.setSubscriber s (some sub)).eraseMember p s
      let newCount := tree.size p
      (if newCount = 0 then tree.eraseTopic topic else tree,
        true, sub.topics.length = 0, newCount)
    else (tree, false, false, -1)
  | _, _ => (tree, false, false, -1)

def createSubscriber (tree : TopicTree) (address : SubscriberPtr) : TopicTree × SubscriberPtr :=
  (tree.setSubscriber address (some {}), address)

/-- One round of the loop in `freeSubscriber`. -/
def leave (tree : TopicTree) (s : SubscriberPtr) (p : TopicPtr) : TopicTree :=
  match tree.topicAt p with
  | none => tree
  | some topic => if tree.size p = 1 then tree.eraseTopic topic.name else tree.eraseMember p s

def freeSubscriber (tree : TopicTree) : Option SubscriberPtr → TopicTree
  | none => tree
  | some s =>
    match tree.subscriberAt s with
    | none => tree
    | some sub => (sub.topics.foldl (fun tree p => tree.leave s p) tree).setSubscriber s none

def publish (tree : TopicTree) (sender : Option SubscriberPtr) (topic message : Bytes) :
    List Delivery × Bool :=
  match (tree.topics topic).bind tree.topicAt with
  | none => ([], false)
  | some found =>
    let receivers := found.members.filter fun s => sender ≠ some s
    (receivers.map fun s => { subscriber := s, message, flags := FIRST ||| LAST },
      receivers ≠ [])

/-- The calls of `fn`, each with the message it is given, and the result. -/
def publishBig (tree : TopicTree) (sender : Option SubscriberPtr) (topic bigMessage : Bytes) :
    List (SubscriberPtr × Bytes) × Bool :=
  match (tree.topics topic).bind tree.topicAt with
  | none => ([], false)
  | some found =>
    ((found.members.filter fun s => sender ≠ some s).map fun s => (s, bigMessage), true)

/-! ### Cells -/

section cells

variable (tree : TopicTree) (name n : Bytes) (p q : TopicPtr) (s t : SubscriberPtr)

@[simp, grind =] theorem setTopics_topics (v : Option TopicPtr) :
    (tree.setTopics name v).topics n = if n = name then v else tree.topics n := by
  simp [setTopics, Function.update_apply]

@[simp, grind =] theorem setTopics_topicAt (v : Option TopicPtr) :
    (tree.setTopics name v).topicAt q = tree.topicAt q := rfl

@[simp, grind =] theorem setTopics_subscriberAt (v : Option TopicPtr) :
    (tree.setTopics name v).subscriberAt t = tree.subscriberAt t := rfl

@[simp, grind =] theorem setTopic_topics (v : Option Topic) :
    (tree.setTopic p v).topics n = tree.topics n := rfl

@[simp, grind =] theorem setTopic_topicAt (v : Option Topic) :
    (tree.setTopic p v).topicAt q = if q = p then v else tree.topicAt q := by
  simp [setTopic, Function.update_apply]

@[simp, grind =] theorem setTopic_subscriberAt (v : Option Topic) :
    (tree.setTopic p v).subscriberAt t = tree.subscriberAt t := rfl

@[simp, grind =] theorem setSubscriber_topics (v : Option Subscriber) :
    (tree.setSubscriber s v).topics n = tree.topics n := rfl

@[simp, grind =] theorem setSubscriber_topicAt (v : Option Subscriber) :
    (tree.setSubscriber s v).topicAt q = tree.topicAt q := rfl

@[simp, grind =] theorem setSubscriber_subscriberAt (v : Option Subscriber) :
    (tree.setSubscriber s v).subscriberAt t = if t = s then v else tree.subscriberAt t := by
  simp [setSubscriber, Function.update_apply]

@[simp, grind =] theorem newTopic_topics :
    (tree.newTopic name p).topics n = if n = name then some p else tree.topics n := by
  simp [newTopic]

@[simp, grind =] theorem newTopic_topicAt :
    (tree.newTopic name p).topicAt q = if q = p then some { name } else tree.topicAt q := by
  simp [newTopic]

@[simp, grind =] theorem newTopic_subscriberAt :
    (tree.newTopic name p).subscriberAt t = tree.subscriberAt t := rfl

@[simp, grind =] theorem link_topics (S : Subscriber) :
    (tree.link s S p).topics n = tree.topics n := rfl

@[simp, grind =] theorem link_topicAt (S : Subscriber) :
    (tree.link s S p).topicAt q =
      if q = p then (tree.topicAt p).map fun T => { T with members := T.members.insert s }
      else tree.topicAt q := by
  simp [link]

@[simp, grind =] theorem link_subscriberAt (S : Subscriber) :
    (tree.link s S p).subscriberAt t =
      if t = s then some { S with topics := p :: S.topics } else tree.subscriberAt t := by
  simp [link]

@[simp, grind =] theorem eraseMember_topics :
    (tree.eraseMember p s).topics n = tree.topics n := rfl

@[simp, grind =] theorem eraseMember_topicAt :
    (tree.eraseMember p s).topicAt q =
      if q = p then (tree.topicAt p).map fun T => { T with members := T.members.erase s }
      else tree.topicAt q := by
  simp [eraseMember]

@[simp, grind =] theorem eraseMember_subscriberAt :
    (tree.eraseMember p s).subscriberAt t = tree.subscriberAt t := rfl

end cells

/-! ### The invariant -/

/-- `s` is in the set of topic `p`. -/
def Member (tree : TopicTree) (p : TopicPtr) (s : SubscriberPtr) : Prop :=
  ∃ T, tree.topicAt p = some T ∧ s ∈ T.members

/-- `p` is in the set of subscriber `s`. -/
def Follows (tree : TopicTree) (s : SubscriberPtr) (p : TopicPtr) : Prop :=
  ∃ S, tree.subscriberAt s = some S ∧ p ∈ S.topics

/-- The names lead to the topics, and the two sets mirror each other. -/
structure Linked (tree : TopicTree) : Prop where
  named : ∀ n p, tree.topics n = some p → ∃ T, tree.topicAt p = some T ∧ T.name = n
  listed : ∀ p T, tree.topicAt p = some T → tree.topics T.name = some p
  members_nodup : ∀ p T, tree.topicAt p = some T → T.members.Nodup
  topics_nodup : ∀ s S, tree.subscriberAt s = some S → S.topics.Nodup
  mirror : ∀ p s, tree.Member p s ↔ tree.Follows s p

/-- Every topic has a subscriber. -/
def Inhabited (tree : TopicTree) : Prop :=
  ∀ p T, tree.topicAt p = some T → T.members ≠ []

/-- Subscriber `s` is in the set of the topic of that name. -/
def Subscribed (tree : TopicTree) (s : SubscriberPtr) (name : Bytes) : Prop :=
  ∃ p, tree.topics name = some p ∧ tree.Member p s

/-- Whatever the pointers of the tree and its subscribers lead to is allocated. -/
structure NoDangling (tree : TopicTree) : Prop where
  topics : ∀ n p, tree.topics n = some p → (tree.topicAt p).isSome
  members : ∀ p s, tree.Member p s → (tree.subscriberAt s).isSome
  follows : ∀ s p, tree.Follows s p → (tree.topicAt p).isSome

theorem linked_empty : Linked {} := by
  constructor <;> simp [Member, Follows]

variable {tree : TopicTree} {s : SubscriberPtr} {S : Subscriber} {p : TopicPtr} {T : Topic}

theorem Linked.noDangling (h : tree.Linked) : tree.NoDangling where
  topics := by
    intro n p hn
    obtain ⟨T, hT, -⟩ := h.named n p hn
    simp [hT]
  members := by
    intro p s hmem
    obtain ⟨S, hS, -⟩ := (h.mirror p s).mp hmem
    simp [hS]
  follows := by
    intro s p hmem
    obtain ⟨T, hT, -⟩ := (h.mirror p s).mpr hmem
    simp [hT]

/-- A topic that is alive is found by its name only. -/
theorem Linked.topics_eq_some_iff (h : tree.Linked) (hp : tree.topicAt p = some T) {n : Bytes} :
    tree.topics n = some p ↔ n = T.name := by
  constructor
  · intro hn
    obtain ⟨T', hT', rfl⟩ := h.named n p hn
    rw [hp] at hT'
    cases hT'
    rfl
  · rintro rfl
    exact h.listed p T hp

/-- A subscriber that follows nothing may come and go. -/
theorem Linked.setSubscriber_unlinked (h : tree.Linked) {v : Option Subscriber}
    (hold : ∀ S, tree.subscriberAt s = some S → S.topics = [])
    (hnew : ∀ S, v = some S → S.topics = []) : (tree.setSubscriber s v).Linked where
  named := h.named
  listed := h.listed
  members_nodup := h.members_nodup
  topics_nodup := by
    intro t S ht
    have := h.topics_nodup t S
    have := hnew S
    grind
  mirror := by
    intro p t
    refine (h.mirror p t).trans ?_
    simp only [Follows, setSubscriber_subscriberAt]
    grind

theorem Linked.setSubscriber_empty (h : tree.Linked) (hs : tree.subscriberAt s = none) :
    (tree.setSubscriber s (some {})).Linked :=
  h.setSubscriber_unlinked (by simp [hs]) (by simp)

/-! ### Subscribing -/

theorem newTopic_member (hp : tree.topicAt p = none) (name : Bytes) (q : TopicPtr)
    (t : SubscriberPtr) : (tree.newTopic name p).Member q t ↔ tree.Member q t := by
  simp only [Member, newTopic_topicAt]
  grind

theorem Linked.newTopic (h : tree.Linked) {name : Bytes} (hname : tree.topics name = none)
    (hp : tree.topicAt p = none) : (tree.newTopic name p).Linked where
  named := by
    intro n q hn
    by_cases hnn : n = name
    · obtain rfl : p = q := by simpa [hnn] using hn
      exact ⟨{ name }, by simp, hnn.symm⟩
    · obtain ⟨T, hT, hname⟩ := h.named n q (by simpa [hnn] using hn)
      exact ⟨T, by grind, hname⟩
  listed := by
    intro q T hq
    have := h.listed q T
    grind
  members_nodup := by
    intro q T hq
    have := h.members_nodup q T
    grind
  topics_nodup := h.topics_nodup
  mirror q t := (newTopic_member hp name q t).trans (h.mirror q t)

theorem link_member (hp : tree.topicAt p = some T) (q : TopicPtr) (t : SubscriberPtr) :
    (tree.link s S p).Member q t ↔ tree.Member q t ∨ q = p ∧ t = s := by
  simp only [Member, link_topicAt]
  by_cases hq : q = p
  · simp [hq, hp, or_comm]
  · simp [hq]

theorem link_follows (hs : tree.subscriberAt s = some S) (q : TopicPtr) (t : SubscriberPtr) :
    (tree.link s S p).Follows t q ↔ tree.Follows t q ∨ q = p ∧ t = s := by
  simp only [Follows, link_subscriberAt]
  by_cases ht : t = s
  · simp [ht, hs, or_comm]
  · simp [ht]

theorem Linked.link (h : tree.Linked) (hs : tree.subscriberAt s = some S)
    (hp : tree.topicAt p = some T) (hnew : p ∉ S.topics) : (tree.link s S p).Linked where
  named := by
    intro n q hn
    obtain ⟨T', hT', hname⟩ := h.named n q hn
    by_cases hq : q = p
    · exact ⟨{ T with members := T.members.insert s }, by simp [hq, hp], by grind⟩
    · exact ⟨T', by simpa [hq] using hT', hname⟩
  listed := by
    intro q T' hq
    have := h.listed q
    grind
  members_nodup := by
    intro q T' hq
    have := h.members_nodup q
    have := (h.members_nodup p T hp).insert (a := s)
    grind
  topics_nodup := by
    intro t S' ht
    have := h.topics_nodup t
    grind
  mirror q t := by
    rw [link_member hp, link_follows hs, h.mirror]

/-! ### Leaving a topic -/

/-- Leaving a topic: the last member takes the topic along. -/
theorem leave_eq (h : tree.Linked) (hp : tree.topicAt p = some T) (hmem : s ∈ T.members) :
    tree.leave s p =
      if T.members = [s] then (tree.setTopics T.name none).setTopic p none
      else tree.eraseMember p s := by
  have hsize : tree.size p = 1 ↔ T.members = [s] := by
    simp only [size, hp, Option.map_some, Option.getD_some, List.length_eq_one_iff]
    constructor
    · rintro ⟨t, ht⟩
      simpa [ht, eq_comm] using hmem
    · exact fun ht => ⟨s, ht⟩
  simp only [leave, hp, hsize, eraseTopic, h.listed p T hp]

theorem leave_member (h : tree.Linked) (hp : tree.topicAt p = some T) (hmem : s ∈ T.members)
    (q : TopicPtr) (t : SubscriberPtr) :
    (tree.leave s p).Member q t ↔ tree.Member q t ∧ ¬ (q = p ∧ t = s) := by
  rw [leave_eq h hp hmem]
  by_cases hq : q = p
  · subst hq
    by_cases hlast : T.members = [s]
    · simp [Member, hlast, hp]
    · have herase := (h.members_nodup q T hp).mem_erase_iff (a := t) (b := s)
      simp [Member, hlast, hp, herase, and_comm]
  · split <;> simp [Member, hq]

theorem leave_subscriberAt (h : tree.Linked) (hp : tree.topicAt p = some T)
    (hmem : s ∈ T.members) : (tree.leave s p).subscriberAt = tree.subscriberAt := by
  rw [leave_eq h hp hmem]
  split <;> rfl

theorem setSubscriber_erase_follows (hs : tree.subscriberAt s = some S) (hnodup : S.topics.Nodup)
    (q : TopicPtr) (t : SubscriberPtr) :
    (tree.setSubscriber s (some { S with topics := S.topics.erase p })).Follows t q ↔
      tree.Follows t q ∧ ¬ (q = p ∧ t = s) := by
  simp only [Follows, setSubscriber_subscriberAt]
  by_cases ht : t = s
  · simp [ht, hs, hnodup.mem_erase_iff, and_comm]
  · simp [ht]

theorem leave_topicAt (h : tree.Linked) (hp : tree.topicAt p = some T) (hmem : s ∈ T.members)
    (q : TopicPtr) :
    (tree.leave s p).topicAt q =
      if q = p then
        if T.members = [s] then none else some { T with members := T.members.erase s }
      else tree.topicAt q := by
  rw [leave_eq h hp hmem]
  by_cases hlast : T.members = [s]
  · simp [hlast]
  · simp [hlast, hp]

theorem leave_topics (h : tree.Linked) (hp : tree.topicAt p = some T) (hmem : s ∈ T.members)
    (n : Bytes) :
    (tree.leave s p).topics n =
      if T.members = [s] ∧ n = T.name then none else tree.topics n := by
  rw [leave_eq h hp hmem]
  by_cases hlast : T.members = [s]
  · simp [hlast]
  · simp [hlast]

/-- A subscriber leaves a topic, both sets being updated. -/
def unlink (tree : TopicTree) (s : SubscriberPtr) (S : Subscriber) (p : TopicPtr) : TopicTree :=
  (tree.leave s p).setSubscriber s (some { S with topics := S.topics.erase p })

theorem Linked.topicAt_of_follows (h : tree.Linked) (hs : tree.subscriberAt s = some S)
    (hp : p ∈ S.topics) : ∃ T, tree.topicAt p = some T ∧ s ∈ T.members :=
  (h.mirror p s).mpr ⟨S, hs, hp⟩

theorem Linked.unlink (h : tree.Linked) (hs : tree.subscriberAt s = some S) (hp : p ∈ S.topics) :
    (tree.unlink s S p).Linked := by
  obtain ⟨T, hT, hmem⟩ := h.topicAt_of_follows hs hp
  have htopicAt := leave_topicAt h hT hmem
  have htopics := leave_topics h hT hmem
  have hname := fun n => h.topics_eq_some_iff hT (n := n)
  constructor
  · intro n q hn
    change (tree.leave s p).topics n = some q at hn
    change ∃ T', (tree.leave s p).topicAt q = some T' ∧ T'.name = n
    rw [htopics] at hn
    have hnamed := h.named n q
    have := htopicAt q
    grind
  · intro q T' hq
    change (tree.leave s p).topicAt q = some T' at hq
    change (tree.leave s p).topics T'.name = some q
    rw [htopicAt] at hq
    rw [htopics]
    have := h.listed q T'
    have := hname T'.name
    grind
  · intro q T' hq
    change (tree.leave s p).topicAt q = some T' at hq
    rw [htopicAt] at hq
    have := h.members_nodup q T'
    have := (h.members_nodup p T hT).erase s
    grind
  · intro t S' ht
    have hold := h.topics_nodup t S'
    have hnew := (h.topics_nodup s S hs).erase p
    have hsub := leave_subscriberAt h hT hmem
    simp only [TopicTree.unlink, setSubscriber_subscriberAt, hsub] at ht
    grind
  · intro q t
    have hsub := leave_subscriberAt h hT hmem
    change (tree.leave s p).Member q t ↔ _
    rw [leave_member h hT hmem, h.mirror]
    have hs' : (tree.leave s p).subscriberAt s = some S := by rw [hsub, hs]
    rw [TopicTree.unlink, setSubscriber_erase_follows hs' (h.topics_nodup s S hs)]
    simp only [Follows, hsub]

theorem Inhabited.unlink (hi : tree.Inhabited) (h : tree.Linked)
    (hs : tree.subscriberAt s = some S) (hp : p ∈ S.topics) : (tree.unlink s S p).Inhabited := by
  obtain ⟨T, hT, hmem⟩ := h.topicAt_of_follows hs hp
  intro q T' hq
  change (tree.leave s p).topicAt q = some T' at hq
  rw [leave_topicAt h hT hmem] at hq
  by_cases hqp : q = p
  · by_cases hlast : T.members = [s]
    · simp [hqp, hlast] at hq
    · obtain rfl : { T with members := T.members.erase s } = T' := by
        simpa [hqp, hlast] using hq
      intro hnil
      rcases List.erase_eq_nil_iff.mp hnil with hnil | hone
      · simp [hnil] at hmem
      · exact hlast hone
  · exact hi q T' (by simpa [hqp] using hq)

/-! ### The relation -/

theorem newTopic_subscribed {name : Bytes} (hname : tree.topics name = none)
    (hp : tree.topicAt p = none) (t : SubscriberPtr) (n : Bytes) :
    (tree.newTopic name p).Subscribed t n ↔ tree.Subscribed t n := by
  have hnone : ¬ tree.Member p t := by simp [Member, hp]
  simp only [Subscribed, newTopic_topics, newTopic_member hp]
  by_cases hn : n = name
  · simp [hn, hname, hnone]
  · simp [hn]

theorem Linked.link_subscribed (h : tree.Linked) (hp : tree.topicAt p = some T)
    (t : SubscriberPtr) (n : Bytes) :
    (tree.link s S p).Subscribed t n ↔ tree.Subscribed t n ∨ t = s ∧ n = T.name := by
  simp only [Subscribed, link_topics, link_member hp]
  rw [← h.topics_eq_some_iff hp]
  constructor
  · rintro ⟨q, hn, hmem | ⟨rfl, rfl⟩⟩
    · exact .inl ⟨q, hn, hmem⟩
    · exact .inr ⟨rfl, hn⟩
  · rintro (⟨q, hn, hmem⟩ | ⟨rfl, hn⟩)
    · exact ⟨q, hn, .inl hmem⟩
    · exact ⟨p, hn, .inr ⟨rfl, rfl⟩⟩

theorem Linked.unlink_subscribed (h : tree.Linked) (hs : tree.subscriberAt s = some S)
    (hp : p ∈ S.topics) (hT : tree.topicAt p = some T) (t : SubscriberPtr) (n : Bytes) :
    (tree.unlink s S p).Subscribed t n ↔ tree.Subscribed t n ∧ ¬ (t = s ∧ n = T.name) := by
  obtain ⟨T', hT', hmem⟩ := h.topicAt_of_follows hs hp
  obtain rfl : T = T' := by simpa [hT] using hT'
  have htopics : ∀ n, (tree.unlink s S p).topics n = _ := leave_topics h hT hmem
  have hmember : ∀ q t, (tree.unlink s S p).Member q t ↔ _ := leave_member h hT hmem
  simp only [Subscribed, htopics, hmember, ← h.topics_eq_some_iff hT]
  constructor
  · rintro ⟨q, hn, hq, hne⟩
    grind
  · rintro ⟨⟨q, hn, hq⟩, hne⟩
    refine ⟨q, ?_, hq, by grind⟩
    by_cases hlast : T.members = [s] ∧ tree.topics n = some p
    · obtain ⟨T', hT', hin⟩ := hq
      grind
    · rw [if_neg hlast, hn]

end TopicTree

end XNetty.WebSocket
