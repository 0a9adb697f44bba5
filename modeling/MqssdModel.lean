import MqssdModel.Experiment.MicroBench
import MqssdModel.Experiment.Quiescence
import MqssdModel.Tiering.AgeOrder
import MqssdModel.Tiering.Deadlock
import MqssdModel.Tiering.Contents
import MqssdModel.Tiering.Amplification
import MqssdModel.Trace.Accounting
import MqssdModel.Trace.Counter
import MqssdModel.Trace.Chains
import MqssdModel.Trace.Restriction
import MqssdModel.Bloom.Contents
import MqssdModel.BPlusTree.LeafSpecs
import MqssdModel.BPlusTree.InsertSplit
import MqssdModel.BPlusTree.InsertRun
import MqssdModel.BPlusTree.HexField
import MqssdModel.BPlusTree.Preorder
import MqssdModel.BPlusTree.Height
import MqssdModel.BPlusTree.Sessions
import MqssdModel.BPlusTree.BootName
import MqssdModel.BPlusTree.Process
import MqssdModel.BPlusTree.FreeList
import MqssdModel.BPlusTree.RawAccess
import MqssdModel.BPlusTree.TestFiles
import MqssdModel.BPlusTree.Safety
import MqssdModel.BPlusTree.Balance
import MqssdModel.BPlusTree.Consistency
import MqssdModel.BPlusTree.Occupancy
