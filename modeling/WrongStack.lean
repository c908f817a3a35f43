import WrongStack.Coordination.Theorems
import WrongStack.Permission.Theorems
import WrongStack.Conversation.Theorems
import WrongStack.Conversation.ElisionTheorems
import WrongStack.Session.Theorems
import WrongStack.Session.TruncateTheorems
import WrongStack.TaskDag.Theorems
import WrongStack.Sdd.Theorems
import WrongStack.Budget.Theorems
import WrongStack.Auction.Theorems
import WrongStack.Mailbox.Theorems
import WrongStack.ParallelRun.Theorems
import WrongStack.Providers.Theorems
import WrongStack.Config.Theorems
import WrongStack.Tools.Theorems
import WrongStack.Breaker.Theorems
import WrongStack.Sse.FoldingTheorems
import WrongStack.FileLock.Theorems
import WrongStack.AutoPhase.Theorems
import WrongStack.FileTools.ReplaceTheorems
import WrongStack.Hq.Theorems
import WrongStack.SecretVault.Theorems
import WrongStack.KnowledgeGraph.Theorems
import WrongStack.Changes.Theorems
import WrongStack.ContextWindow.Theorems
import WrongStack.Memory.Theorems
import WrongStack.Mcp.Theorems
import WrongStack.Audit.Theorems
import WrongStack.Replay.Theorems
import WrongStack.Plugins.Theorems
import WrongStack.Spawning.Theorems
import WrongStack.Delivery.Theorems
import WrongStack.Fallback.Theorems
import WrongStack.SessionRegistry.Theorems
import WrongStack.Selection.Theorems
import WrongStack.Kernel.Theorems
import WrongStack.Utils.AddressTheorems
import WrongStack.AutoPhase.CheckpointTheorems
import WrongStack.AutoPhase.CapTheorems
import WrongStack.Streaming.TranslatorTheorems
import WrongStack.ContextWindow.Calibration
import WrongStack.Config.DeepMergeTheorems
import WrongStack.Mcp.Framing
import WrongStack.Memory.Entries
import WrongStack.Budget.ExtensionGuard
import WrongStack.Providers.OAuthRefresh
import WrongStack.KnowledgeGraph.Index
