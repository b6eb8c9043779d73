import LuckfoxPico.Wic.Proofs.WksProofs
import LuckfoxPico.UBoot.Proofs.RestartProofs
import LuckfoxPico.UBoot.Proofs.DeployProofs
import LuckfoxPico.Rknn.Proofs.FirstRunProofs
import LuckfoxPico.Text.Proofs.StrProofs
import LuckfoxPico.Scan.FirstMatch
import LuckfoxPico.Touch.Proofs.ScansProofs
import LuckfoxPico.Clk.Proofs.RateProofs
import LuckfoxPico.Text.Proofs.PatternProofs
import LuckfoxPico.Restart.Proofs.AttemptsProofs
import LuckfoxPico.Kernel.Proofs.DtsProofs
import LuckfoxPico.Make.Proofs.ReaderProofs
import LuckfoxPico.Wifi.Proofs.BakeProofs
import LuckfoxPico.Html.Proofs.DocumentProofs
import LuckfoxPico.Html.Proofs.ReferencesProofs
import LuckfoxPico.Status.Proofs.FaithfulProofs
import LuckfoxPico.Text.Replace
import LuckfoxPico.Shell.Proofs.QuotesProofs
import LuckfoxPico.Aic.Proofs.ReorderSessionProofs
import LuckfoxPico.Aic.Proofs.FramesProofs
import LuckfoxPico.Aic.Proofs.CmdMgrWakeProofs
import LuckfoxPico.Aic.Proofs.TxWakeProofs
import LuckfoxPico.Aic.Proofs.Md5Proofs
import LuckfoxPico.Aic.Proofs.TxHostProofs
