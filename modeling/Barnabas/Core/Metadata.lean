import Barnabas.Core.TopicPartition
import Barnabas.Lib.MachineInt

/-!
The cluster map (`barnabas-core/src/metadata.rs`): which broker leads which
partition, and how to reach it.
-/

namespace Barnabas.Core

open Barnabas.Lib

/-- How to reach a broker. -/
structure BrokerAddr where
  nodeId : ℤ
  host : String
  port : ℤ
  deriving DecidableEq, Repr

/-- `host:port`, ready for a connect. -/
def BrokerAddr.addr (broker : BrokerAddr) : String := broker.host ++ ":" ++ toString broker.port

/-- A partition as a `MetadataResponse` lists it. -/
structure PartitionMetadata where
  errorCode : ℤ
  partitionIndex : ℤ
  leaderId : ℤ
  deriving DecidableEq, Repr

structure TopicMetadata where
  errorCode : ℤ
  name : Option String
  partitions : List PartitionMetadata
  deriving DecidableEq, Repr

structure MetadataResponse where
  brokers : List BrokerAddr
  controllerId : ℤ
  topics : List TopicMetadata
  deriving DecidableEq, Repr

/-- What the client knows about the cluster. -/
structure Metadata where
  brokers : Std.TreeMap ℤ BrokerAddr
  leaders : PartitionMap ℤ
  partitionCounts : Std.TreeMap String ℤ
  controller : Option ℤ

namespace Metadata

def new : Metadata where
  brokers := ∅
  leaders := ∅
  partitionCounts := ∅
  controller := none

/-- A partition that carries an error, or has no leader, is skipped: an error
means "ask again", and writing it down would cache the failure. -/
def updatePartition (topic : String) (leaders : PartitionMap ℤ) (p : PartitionMetadata) :
    PartitionMap ℤ :=
  if p.errorCode ≠ 0 ∨ p.leaderId < 0 then leaders
  else leaders.insert ⟨topic, p.partitionIndex⟩ p.leaderId

def updateTopic (metadata : Metadata) (topic : TopicMetadata) : Metadata :=
  if topic.errorCode ≠ 0 then metadata
  else
    match topic.name with
    | none => metadata
    | some name =>
        { metadata with
          partitionCounts := metadata.partitionCounts.insert name
            (min (topic.partitions.length : ℤ) i32Max)
          leaders := topic.partitions.foldl (updatePartition name) metadata.leaders }

/-- Merge a `MetadataResponse` in. -/
def update (metadata : Metadata) (resp : MetadataResponse) : Metadata :=
  let metadata := { metadata with
    controller := if 0 ≤ resp.controllerId then some resp.controllerId else metadata.controller
    brokers := resp.brokers.foldl (fun brokers b => brokers.insert b.nodeId b) metadata.brokers }
  resp.topics.foldl updateTopic metadata

/-- Where to send a request for this partition, if known. -/
def leaderFor (metadata : Metadata) (tp : TopicPartition) : Option BrokerAddr := do
  let node ← metadata.leaders[tp]?
  metadata.brokers[node]?

/-- The controller, if one has been named and its address is known. -/
def controllerAddr (metadata : Metadata) : Option BrokerAddr := do
  let node ← metadata.controller
  metadata.brokers[node]?

/-- Forget which broker is the controller, after it said it is not. -/
def invalidateController (metadata : Metadata) : Metadata := { metadata with controller := none }

/-- Forget one partition's leader, leaving the rest of the map alone. -/
def invalidatePartition (metadata : Metadata) (tp : TopicPartition) : Metadata :=
  { metadata with leaders := metadata.leaders.erase tp }

/-- How many partitions this topic has, or 0 if it has never been seen. -/
def partitionCount (metadata : Metadata) (topic : String) : ℤ :=
  metadata.partitionCounts.getD topic 0

/-- Forget a topic entirely: its count and every leader. -/
def forgetTopic (metadata : Metadata) (topic : String) : Metadata :=
  { metadata with
    partitionCounts := metadata.partitionCounts.erase topic
    leaders := metadata.leaders.filter fun tp _ => tp.topic ≠ topic }

end Metadata

/-- What can happen to the cluster map. -/
inductive MetadataOp
  | update (resp : MetadataResponse)
  | invalidatePartition (tp : TopicPartition)
  | forgetTopic (topic : String)

def MetadataOp.step (metadata : Metadata) : MetadataOp → Metadata
  | update resp => metadata.update resp
  | invalidatePartition tp => metadata.invalidatePartition tp
  | forgetTopic topic => metadata.forgetTopic topic

end Barnabas.Core
