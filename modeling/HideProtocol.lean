import HideProtocol.Lib.Bytes
import HideProtocol.Lib.Text
import HideProtocol.Lib.Base64
import HideProtocol.Lib.Parser
import HideProtocol.Lib.Chunks
import HideProtocol.Lib.Armor
import HideProtocol.Lib.EditedLines
import HideProtocol.Lib.Cbor
import HideProtocol.Lib.CborItem
import HideProtocol.Lib.Run
import HideProtocol.Lib.Reader
import HideProtocol.Lib.Merkle
import HideProtocol.Lib.Collision
import HideProtocol.Lib.Lookup
import HideProtocol.Lib.Shared
import HideProtocol.Lib.Usize
import HideProtocol.Lib.Panics
import HideProtocol.Lib.Checked
import HideProtocol.Lib.Montgomery
import HideProtocol.Lib.Pratt
import HideProtocol.Lib.Program
import HideProtocol.Lib.Disk
import HideProtocol.Lib.Paths
import HideProtocol.Format.Preamble
import HideProtocol.Format.Codec
import HideProtocol.Format.CodecTheorems
import HideProtocol.Crypto.Suite
import HideProtocol.Crypto.PublicKeys
import HideProtocol.Crypto.SmallOrder
import HideProtocol.Sign.Hybrid
import HideProtocol.Sign.Challenge
import HideProtocol.Sign.ChallengeCodec
import HideProtocol.Object.Records
import HideProtocol.Object.RecordsTheorems
import HideProtocol.Object.Schedules
import HideProtocol.Object.Container
import HideProtocol.Object.Matching
import HideProtocol.Object.ContainerTheorems
import HideProtocol.Object.Nonces
import HideProtocol.Object.ContainerSuccess
import HideProtocol.Object.RoundTrip
import HideProtocol.Object.Filenames
import HideProtocol.Object.Sizes
import HideProtocol.Object.SignatureBinding
import HideProtocol.Transparency.Tree
import HideProtocol.Transparency.TreeTheorems
import HideProtocol.Transparency.InclusionTheorems
import HideProtocol.Transparency.Descent
import HideProtocol.Transparency.ProverTheorems
import HideProtocol.Transparency.RootTheorems
import HideProtocol.Transparency.ProofCodec
import HideProtocol.Transparency.Checkpoint
import HideProtocol.Transparency.CheckpointTheorems
import HideProtocol.Transparency.NoteTheorems
import HideProtocol.Transparency.Witnesses
import HideProtocol.Identity.Log
import HideProtocol.Identity.Replay
import HideProtocol.Identity.Calls
import HideProtocol.Identity.Authority
import HideProtocol.Identity.Codec
import HideProtocol.Identity.History
import HideProtocol.Identity.Local
import HideProtocol.Identity.Bookkeeping
import HideProtocol.Epoch.Chain
import HideProtocol.Epoch.Codec
import HideProtocol.Epoch.Secrets
import HideProtocol.Epoch.Lookups
import HideProtocol.Identity.Bindings
import HideProtocol.Identity.BindingTheorems
import HideProtocol.Mls.Binding
import HideProtocol.Mls.Provider
import HideProtocol.Sign.Roles
import HideProtocol.Sign.Signers
import HideProtocol.Keyring.KeyFile
import HideProtocol.Keyring.KeyFileTheorems
import HideProtocol.Keyring.PublicText
import HideProtocol.Keyring.EpochStore
import HideProtocol.Keyring.EpochStoreTheorems
import HideProtocol.Keyring.EpochStoreParsing
import HideProtocol.Cli.Keys
import HideProtocol.Cli.Agent
import HideProtocol.Cli.AgentServe
import HideProtocol.Cli.Epochs
import HideProtocol.Cli.EpochsTheorems
import HideProtocol.Cli.EpochRaces
import HideProtocol.Cli.Histories
import HideProtocol.Cli.Messages
import HideProtocol.Cli.OpenStore
import HideProtocol.Desktop.Keys
import HideProtocol.Desktop.Messages
import HideProtocol.Desktop.Files
import HideProtocol.Desktop.FilesTheorems
import HideProtocol.Ffi.Boundary
import HideProtocol.Wasm.Bindings
import HideProtocol.Surfaces.KeyFiles
import HideProtocol.Surfaces.RoundTrips
import HideProtocol.Surfaces.Messages
import HideProtocol.Surfaces.ArmorTransport
import HideProtocol.Conformance.Verify
import HideProtocol.Conformance.CheckTheorems
import HideProtocol.Conformance.MetadataTheorems
import HideProtocol.Conformance.HeaderAgreement
import HideProtocol.Conformance.Agreement
import HideProtocol.Conformance.Subsystems
import HideProtocol.Conformance.IdentityDecoding
import HideProtocol.Conformance.IdentityAgreement
import HideProtocol.Conformance.CheckpointAgreement
import HideProtocol.Conformance.ProofAgreement
import HideProtocol.Conformance.EpochAgreement
import HideProtocol.Conformance.BindingAgreement
import HideProtocol.Lib.PartialMerkle
import HideProtocol.Transparency.Following
import HideProtocol.Identity.Published
import HideProtocol.Identity.Forks
import HideProtocol.Cli.IdentityRaces
import HideProtocol.Identity.EpochKeys
import HideProtocol.Mls.Roster
import HideProtocol.Conformance.WriterAgreement
import HideProtocol.Surfaces.Corruption
import HideProtocol.Conformance.Keys
import HideProtocol.Lib.Edwards
import HideProtocol.Conformance.PublicKeys
