import Galette.Lib.Interleave
import Galette.Lib.Machine
import Galette.Lib.Maps
import Galette.Lib.Outcome
import Galette.Lib.Codec
import Galette.Lib.Casing
import Galette.Lib.Bytes
import Galette.Lib.Ledger
import Galette.Lib.Graph
import Galette.Protocol.Chain
import Galette.Protocol.Message
import Galette.Protocol.Proofs.WireProofs
import Galette.Crp.Store
import Galette.Crp.Proofs.StoreProofs
import Galette.Protocol.Keys
import Galette.Protocol.KeySource
import Galette.Protocol.Proofs.KeysProofs
import Galette.Protocol.Proofs.KeySourceProofs
import Galette.Nf.Packet
import Galette.Nf.Program
import Galette.Nf.Functions
import Galette.Nf.Proofs.PacketProofs
import Galette.Nf.Proofs.ProgramProofs
import Galette.Nf.Proofs.FunctionProofs
import Galette.Chainsmith.Chain
import Galette.Chainsmith.MakeConcrete
import Galette.Chainsmith.Description
import Galette.Chainsmith.Generate
import Galette.Chainsmith.Analyse
import Galette.Chainsmith.Compile
import Galette.Chainsmith.Server
import Galette.Chainsmith.Manifest
import Galette.NfMacros.Maps
import Galette.Chainsmith.Proofs.MakeConcreteProofs
import Galette.Chainsmith.Proofs.AcceptanceProofs
import Galette.Chainsmith.Proofs.ArityProofs
import Galette.Chainsmith.Proofs.AnalyseProofs
import Galette.Chainsmith.Proofs.CompileProofs
import Galette.Chainsmith.Proofs.GenerateProofs
import Galette.Chainsmith.Proofs.ManifestProofs
import Galette.Pulley.Client
import Galette.Pulley.Object
import Galette.Pulley.Install
import Galette.Pulley.Dataplane
import Galette.Pulley.Semantics
import Galette.Pulley.Umem
import Galette.Pulley.Batch
import Galette.Pulley.Startup
import Galette.Pulley.Shutdown
import Galette.Pulley.Proofs.InstallProofs
import Galette.Pulley.Proofs.TableProofs
import Galette.Pulley.Proofs.HandoverProofs
import Galette.Pulley.Proofs.SimulationProofs
import Galette.Pulley.Proofs.TotalProofs
import Galette.Pulley.Proofs.ErrorProofs
import Galette.Pulley.Proofs.RefinementProofs
import Galette.Pulley.Proofs.UmemProofs
import Galette.Pulley.Proofs.FrameProofs
import Galette.Pulley.Proofs.BatchProofs
import Galette.Pulley.Proofs.StartupProofs
import Galette.Pulley.Proofs.ShutdownProofs
import Galette.Pipeline.Build
import Galette.Pipeline.Placement
import Galette.Pipeline.Session
import Galette.Pipeline.Traffic
import Galette.Pipeline.Proofs.MessageProofs
import Galette.Pipeline.Proofs.SessionProofs
import Galette.Pipeline.Proofs.IntegrityProofs
import Galette.Pipeline.Proofs.MapProofs
import Galette.Pipeline.Proofs.MapTypeProofs
import Galette.Pipeline.Proofs.PlacementProofs
import Galette.Pipeline.Proofs.TransportProofs
import Galette.Pipeline.Proofs.TrafficProofs
import Galette.Pipeline.Proofs.CompletionProofs
import Galette.Pipeline.Proofs.ShortcutProofs
import Galette.Pipeline.Proofs.DispatchProofs
