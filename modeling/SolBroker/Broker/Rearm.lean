import Mathlib
import SolBroker.Lib.Run
import SolBroker.Broker.Attachment
import SolBroker.Broker.Closures

/-!
# Re-arming

The epoll set is one-shot: once a descriptor has been reported it is silent until it
is armed again. A registered closure is armed for what its callback does exactly as
long as nothing is read that the callbacks take without a consequence, since `on_read`
tests for the same return code twice and leaves its error exits without re-arming.
-/

namespace SolBroker

open Transition

section Steps

variable {b b' : Broker HashTable} {event : Event} {fuel : Nat}

end Steps

/-- A PUBLISH without a payload to a topic of one letter, with a QoS. -/
def publishTo (c qos : UInt8) : MqttPublish where
  header := (⟨0x30⟩ : MqttHeader).withQos qos
  pktId := 1
  topiclen := 1
  topic := [c]

end SolBroker
