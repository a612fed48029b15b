import Codex.NetworkProxy.CredentialDestination
import Codex.ApplyPatch.Preview
import Codex.NetworkProxy.ApproveHost
import Codex.NetworkProxy.ManagedAllowlist
import Codex.Sandboxing.GlobDenies
import Codex.Rollout.Migration
import Codex.NoiseRelay.VirtualStream
import Codex.ContextManager.CallPairs
import Codex.Rollout.NewestTurn
import Codex.Transcript.Fork
import Codex.Transcript.HistoryAgreement
import Codex.Permissions.EntryOrder
import Codex.Permissions.WritableSoundness
import Codex.Permissions.EquivalentPolicies
import Codex.StreamParser.ChunkIndependence
import Codex.StreamParser.Utf8Stream
import Codex.ApplyPatch.PatchAgreement
import Codex.ApplyPatch.DefaultMode
import Codex.ApplyPatch.PreserveEndings
import Codex.TurnDiff.DiffCache
import Codex.RemoteControl.OutboundReports
import Codex.ExecServer.SessionRuns
import Codex.ExecServer.StdinWrites
import Codex.Permissions.ApprovedCommand
import Codex.Sandboxing.EffectivePolicy
import Codex.Rollout.ForkPositions
import Codex.Rollout.TurnContexts
import Codex.ContextManager.RemoveFirst
import Codex.ShellCommand.DangerousCommand
import Codex.ExecPolicy.Amendment
import Codex.UnifiedExec.HeadTailBuffer
import Codex.Rollout.ReverseScanner
import Codex.WorldState.Baseline
import Codex.RemoteControl.SplitServerMessages
import Codex.RemoteControl.Retransmission
