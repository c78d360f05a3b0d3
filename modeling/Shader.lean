import Shader.Config.Reader
import Shader.Main
import Shader.Proofs.Assignable
import Shader.Proofs.Constructed
import Shader.Proofs.Decorated
import Shader.Proofs.Folding
import Shader.Proofs.ImageCapabilities
import Shader.Proofs.ImageOperands
import Shader.Proofs.Joined
import Shader.Proofs.Listings
import Shader.Proofs.Members
import Shader.Proofs.Modes
import Shader.Proofs.Precedence
import Shader.Proofs.Rewriting
import Shader.Proofs.Signatures
import Shader.Proofs.Storage
import Shader.Proofs.Structured
