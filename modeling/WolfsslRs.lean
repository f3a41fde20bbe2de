import WolfsslRs.Bytes
import WolfsslRs.NonceCounter
import WolfsslRs.CMemory
import WolfsslRs.Rfc3394
import WolfsslRs.KeyWrap
import WolfsslRs.KeyWrapTrip
import WolfsslRs.KeyWrapBounds
import WolfsslRs.KeyWrapApi
import WolfsslRs.Program
import WolfsslRs.Trace
import WolfsslRs.TlsStream
import WolfsslRs.TlsRead
import WolfsslRs.TlsClose
import WolfsslRs.TlsHandshake
import WolfsslRs.TlsMoves
import WolfsslRs.TlsWire
import WolfsslRs.TlsWake
import WolfsslRs.TlsFlush
import WolfsslRs.TlsDrive
import WolfsslRs.TlsClient
import WolfsslRs.Reader
import WolfsslRs.SshAlgorithm
import WolfsslRs.SshEncoding
import WolfsslRs.SshKey
import WolfsslRs.SshVerify
import WolfsslRs.SshSpelling
import WolfsslRs.SshAnnounce
import WolfsslRs.SshReencode
import WolfsslRs.SshText
import WolfsslRs.SharedSlot
import WolfsslRs.HwHash
import WolfsslRs.Cbc
import WolfsslRs.HwCbc
import WolfsslRs.AeadKey
import WolfsslRs.AeadPaths
import WolfsslRs.Streaming
import WolfsslRs.RingVerify
import WolfsslRs.SshPrivate
import WolfsslRs.SshSign
import WolfsslRs.SshSig
import WolfsslRs.SshLengths
import WolfsslRs.SshKeypairTrip
import WolfsslRs.SshPrivateTrip
import WolfsslRs.SshCertTrip
import WolfsslRs.SshBuilder
import WolfsslRs.SshNesting
import WolfsslRs.SshLine
import WolfsslRs.SshLineTrip
import WolfsslRs.Delimited
import WolfsslRs.SshKeyFile
import WolfsslRs.SshAuthorizedKeys
import WolfsslRs.SshAuthorizedTrip
import WolfsslRs.SshKnownHosts
import WolfsslRs.Dpe
import WolfsslRs.DpeStore
import WolfsslRs.HsmNvm
import WolfsslRs.HsmOverwrite
import WolfsslRs.TryLock
import WolfsslRs.HsmCryptoCb
import WolfsslRs.Gcm
import WolfsslRs.HwGcm
import WolfsslRs.Der
import WolfsslRs.RsaDer
import WolfsslRs.KdfShim
import WolfsslRs.RingSpki
import WolfsslRs.RingPkcs8
import WolfsslRs.SshSignature
import WolfsslRs.SshScalar
import WolfsslRs.SshPpk
import WolfsslRs.DerReader
import WolfsslRs.EcdsaFixed
import WolfsslRs.EvpSign
import WolfsslRs.Hkdf
import WolfsslRs.Cipher
import WolfsslRs.CipherPadded
import WolfsslRs.CipherKeys
import WolfsslRs.StreamingWhole
import WolfsslRs.OpensshAead
import WolfsslRs.HwRng
import WolfsslRs.SshRandomart
import WolfsslRs.SshConfigOpts
import WolfsslRs.Lockstep
import WolfsslRs.SshFormatBuffer
import WolfsslRs.TlsCrates
import WolfsslRs.Words
import WolfsslRs.Limbs
import WolfsslRs.LimbProducts
import WolfsslRs.SpDigits
import WolfsslRs.SpDivide
import WolfsslRs.SpMontgomery
import WolfsslRs.SpCurves
import WolfsslRs.SpBytes
import WolfsslRs.AdditionChain
import WolfsslRs.Primality
import WolfsslRs.SpOrders
import WolfsslRs.SpInverse
import WolfsslRs.SpModInv
import WolfsslRs.SpScalars
import WolfsslRs.SpEcdsa
