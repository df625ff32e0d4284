import Mathlib
import SolBroker.Broker.Handlers

/-!
# Topic names

SUBSCRIBE and PUBLISH each turn the topic of a packet into the name they look up, with
code of their own. Both arrive at the topic with a slash at its end, added if there is
none, as long as it is a non-empty string of the length that came with it and, in a
SUBSCRIBE, no wildcard filter. A filter `P/#` is looked up as `P/`.
-/

namespace SolBroker

/-- A topic as it is decoded: with its own length, not empty and without a NUL. -/
structure IsTopic (len : UInt16) (topic : List UInt8) : Prop where
  length : len.toNat = topic.length
  nonempty : topic ≠ []
  nulFree : 0 ∉ topic

/-- A topic with a slash at its end. -/
def normalised (topic : List UInt8) : List UInt8 :=
  if topic.getLast? = some slashChar then topic else topic ++ [slashChar]

/-- A filter that `subscribe_handler` takes for a plain topic; `#` alone it cannot tell,
since it looks at the byte before it. -/
def IsPlain (topic : List UInt8) : Prop :=
  topic ≠ [hashChar] ∧ ¬ [slashChar, hashChar] <:+ topic

section Names

variable {len : UInt16} {topic : List UInt8}

/-- The last byte of a topic. -/
theorem IsTopic.charBefore_one (is : IsTopic len topic) :
    ∃ last, topic.getLast? = some last ∧ charBefore topic len 1 = .ok last := by
  obtain rfl | ⟨front, last, rfl⟩ := topic.eq_nil_or_concat
  · exact absurd rfl is.nonempty
  · refine ⟨last, by simp, ?_⟩
    have length := is.length
    rw [List.concat_eq_append, List.length_append, List.length_singleton] at length
    rw [charBefore, if_neg (by omega), length, List.concat_eq_append]
    simp

/-- The byte before it, when there is one. -/
theorem IsTopic.charBefore_two {front : List UInt8} {d last : UInt8}
    (is : IsTopic len (front ++ [d, last])) : charBefore (front ++ [d, last]) len 2 = .ok d := by
  have length := is.length
  rw [List.length_append] at length
  change len.toNat = front.length + 2 at length
  rw [charBefore, if_neg (by omega), length]
  simp

theorem IsTopic.bytes_cstr (is : IsTopic len topic) : (cstr topic).bytes = topic :=
  cstr_bytes_of_nulFree is.nulFree

theorem IsTopic.bytes_appendString (is : IsTopic len topic) :
    (appendString (cstr topic) slash 1).bytes = topic ++ [slashChar] := by
  show (cstr topic).bytes ++ [slashChar] = _
  rw [is.bytes_cstr]

/-- The name of a PUBLISH. -/
theorem IsTopic.publishTopic {pkt : MqttPublish} (is : IsTopic pkt.topiclen pkt.topic) :
    ∃ name, publishTopic pkt = .ok name ∧ name.bytes = normalised pkt.topic := by
  obtain ⟨last, isLast, read⟩ := is.charBefore_one
  rw [SolBroker.publishTopic, read, normalised, isLast]
  by_cases same : last = slashChar
  · refine ⟨cstr pkt.topic, if_neg (not_not.mpr same), ?_⟩
    rw [if_pos (congrArg some same), is.bytes_cstr]
  · refine ⟨appendString (cstr pkt.topic) slash 1, if_pos same, ?_⟩
    rw [if_neg (mt Option.some.inj same), is.bytes_appendString]

/-- The name of a tuple, once it is known whether it is a filter. -/
theorem tupleTopic_eq {tuple : SubscribeTuple} {last : UInt8} {filter : Bool}
    (read : charBefore tuple.topic tuple.topicLen 1 = .ok last)
    (decided : (if last = hashChar then
      (charBefore tuple.topic tuple.topicLen 2).map (· == slashChar) else .ok false) = .ok filter) :
    tupleTopic tuple = .ok (if filter then (removeOccur (cstr tuple.topic) hashChar, false, true)
      else if last ≠ slashChar then (appendString (cstr tuple.topic) slash 1, true, false)
      else (cstr tuple.topic, false, false)) := by
  rw [tupleTopic, read]
  by_cases hash : last = hashChar
  · rw [if_pos hash] at decided
    show (if last = hashChar then
      (charBefore tuple.topic tuple.topicLen 2).map (· == slashChar) >>= _ else _) = _
    rw [if_pos hash, decided]
    show (if filter = true then _ else _) = _
    split
    · rfl
    · split <;> rfl
  · rw [if_neg hash] at decided
    obtain rfl := Except.ok.inj decided
    show (if last = hashChar then _ else _) = _
    rw [if_neg hash]
    show (if last ≠ slashChar then _ else _) = Except.ok (if last ≠ slashChar then _ else _)
    split <;> rfl

/-- The name of a plain tuple. -/
theorem IsTopic.tupleTopic_plain {tuple : SubscribeTuple} (is : IsTopic tuple.topicLen tuple.topic)
    (plain : IsPlain tuple.topic) : ∃ name appended,
      tupleTopic tuple = .ok (name, appended, false) ∧ name.bytes = normalised tuple.topic := by
  obtain ⟨last, isLast, read⟩ := is.charBefore_one
  have plainly : (if last = hashChar then
      (charBefore tuple.topic tuple.topicLen 2).map (· == slashChar) else .ok false) =
        .ok false := by
    split
    · rename_i isHash
      obtain ⟨front, whole⟩ := List.getLast?_eq_some_iff.mp isLast
      obtain rfl | ⟨front, d, rfl⟩ := front.eq_nil_or_concat
      · rw [isHash] at whole
        exact absurd whole plain.1
      · have whole' : tuple.topic = front ++ [d, last] := by simpa using whole
        rw [whole'] at is ⊢
        rw [is.charBefore_two]
        have other : d ≠ slashChar := by
          rintro rfl
          apply plain.2
          rw [whole', isHash]
          exact List.suffix_append ..
        simp [Except.map, other]
    · rfl
  rw [tupleTopic_eq read plainly, normalised, isLast]
  by_cases same : last = slashChar
  · refine ⟨cstr tuple.topic, false, congrArg Except.ok (if_neg (not_not.mpr same)), ?_⟩
    rw [if_pos (congrArg some same), is.bytes_cstr]
  · refine ⟨appendString (cstr tuple.topic) slash 1, true, congrArg Except.ok (if_pos same), ?_⟩
    rw [if_neg (mt Option.some.inj same), is.bytes_appendString]

/-- A filter is looked up without its hash characters. -/
theorem IsTopic.tupleTopic_hash {tuple : SubscribeTuple} (is : IsTopic tuple.topicLen tuple.topic)
    {P : List UInt8} (split : tuple.topic = P ++ [slashChar, hashChar]) :
    tupleTopic tuple = .ok (removeOccur (cstr tuple.topic) hashChar, false, true) := by
  have first : charBefore tuple.topic tuple.topicLen 1 = .ok hashChar := by
    obtain ⟨last, isLast, read⟩ := is.charBefore_one
    rw [split] at isLast
    have same : some hashChar = some last := by simpa using isLast
    rw [read, Option.some.inj same]
  have second : charBefore tuple.topic tuple.topicLen 2 = .ok slashChar := by
    rw [split] at is ⊢
    exact is.charBefore_two
  have wild : (if hashChar = hashChar then
      (charBefore tuple.topic tuple.topicLen 2).map (· == slashChar) else .ok false) =
        .ok true := by
    rw [if_pos rfl, second]
    rfl
  exact tupleTopic_eq first wild

/-- The name of a filter. -/
theorem IsTopic.tupleTopic_filter {tuple : SubscribeTuple} (is : IsTopic tuple.topicLen tuple.topic)
    {P : List UInt8} (split : tuple.topic = P ++ [slashChar, hashChar]) (noHash : hashChar ∉ P) :
    ∃ name, tupleTopic tuple = .ok (name, false, true) ∧ name.bytes = P ++ [slashChar] := by
  refine ⟨removeOccur (cstr tuple.topic) hashChar, is.tupleTopic_hash split, ?_⟩
  show (cstr tuple.topic).bytes.filter (· ≠ hashChar) = _
  have kept : P.filter (· ≠ hashChar) = P :=
    List.filter_eq_self.mpr fun c member => by
      simpa using fun same : c = hashChar => noHash (same ▸ member)
  have apart : slashChar ≠ hashChar := by decide
  rw [is.bytes_cstr, split, List.filter_append, kept]
  simp [apart]

end Names

end SolBroker
