import P4Bricks.LpmTrie.Refinement
import P4Bricks.Lookup.EntryListRun
import P4Bricks.Expressions.Correctness
import P4Bricks.MatchUnit.HandleLife
import P4Bricks.MatchTables.StaleHandles
import P4Bricks.MatchTables.RefCounts
import P4Bricks.MatchTables.Resolution
import P4Bricks.ActionProfile.Selector
import P4Bricks.Linker.HeaderIds
import P4Bricks.Linker.StateOrder
import P4Bricks.Linker.LinkedStates
import P4Bricks.Linker.MergedSwitches
import P4Bricks.Linker.IdAllocator
import P4Bricks.Pre.Consistency
import P4Bricks.Pre.Lag
import P4Bricks.Queueing.Fifo
import P4Bricks.Queueing.Accounting
import P4Bricks.Learning.Transmission
import P4Bricks.Parser.Bounds
import P4Bricks.Parser.Termination
import P4Bricks.Queueing.SendTimes
import P4Bricks.Parser.RoundTrip
import P4Bricks.Phv.UnionValidity
import P4Bricks.Phv.StackRuns
import P4Bricks.Parser.VSetRuns
import P4Bricks.Phv.Reuse
import P4Bricks.Phv.Clone
import P4Bricks.Parser.FieldBits
import P4Bricks.Parser.DeparsedBits
import P4Bricks.Calculations.Buffer
import P4Bricks.Calculations.Cksum16
import P4Bricks.Calculations.Checksums
import P4Bricks.Calculations.Crc
import P4Bricks.Calculations.CrcTables
import P4Bricks.Common.BitDivision
import P4Bricks.Phv.FieldValues
import P4Bricks.Phv.HeaderSizes
import P4Bricks.Phv.VariableFields
import P4Bricks.Serialization.Streams
import P4Bricks.Switch.Configs
import P4Bricks.Packets.CopyIds
import P4Bricks.MatchUnit.Ageing
import P4Bricks.MatchUnit.Records
import P4Bricks.MatchTables.NextNodes
import P4Bricks.MatchKeys.FieldMatches
import P4Bricks.MatchKeys.Padding
import P4Bricks.MatchKeys.Returned
import P4Bricks.Common.Bisimilar
import P4Bricks.Stateful.Model
import P4Bricks.Stateful.Colors
import P4Bricks.Stateful.Refusals
import P4Bricks.Stateful.Restored
import P4Bricks.Ageing.Sweeps
import P4Bricks.RegisterLocks.Locks
import P4Bricks.MatchTables.ConstantEntries
import P4Bricks.Expressions.Building
import P4Bricks.PortMonitor.Deliveries
import P4Bricks.Lookup.LongestPrefix
import P4Bricks.MatchKeys.Prefixes
import P4Bricks.SimpleSwitch.Jam
import P4Bricks.MatchKeys.PacketLookup
import P4Bricks.Common.Wakeups
import P4Bricks.Queueing.Monitor
import P4Bricks.SimpleSwitch.Order
