import Bergshamra.Lib.Forest
import Bergshamra.Lib.Text
import Bergshamra.Lib.OrdMap
import Bergshamra.Core
import Bergshamra.Xml.Document
import Bergshamra.Xml.NodeSet
import Bergshamra.C14n.Namespaces
import Bergshamra.C14n.Render
import Bergshamra.C14n.Inclusive
import Bergshamra.C14n.Exclusive
import Bergshamra.C14n.Canonicalize
import Bergshamra.Proof.ExclusiveContext
import Bergshamra.Transforms.Pipeline
import Bergshamra.Proof.SameView
import Bergshamra.Proof.Enveloped
import Bergshamra.Proof.Written
import Bergshamra.Lib.Markup
import Bergshamra.Proof.Content
import Bergshamra.Proof.CanonicalForm
import Bergshamra.Proof.ReadBack
import Bergshamra.Proof.Injective
import Bergshamra.Dsig.XPathExpr
import Bergshamra.Xml.XPath
import Bergshamra.Dsig.XPathFilter
import Bergshamra.Dsig.Filter2
import Bergshamra.Dsig.Xslt
import Bergshamra.Dsig.Transform
import Bergshamra.Dsig.Reference
import Bergshamra.Keys.Key
import Bergshamra.Keys.X509
import Bergshamra.Keys.KeyInfo
import Bergshamra.Crypto.Signature
import Bergshamra.Dsig.KeyResolution
import Bergshamra.Dsig.Verify
import Bergshamra.Proof.LeafCert
import Bergshamra.Proof.KeyBinding
import Bergshamra.Proof.Restrict
import Bergshamra.Proof.StrictPosition
import Bergshamra.Lib.Fold
import Bergshamra.Proof.Chain
import Bergshamra.Proof.DocumentIdentity
import Bergshamra.Proof.Narrow
import Bergshamra.Proof.IdLookup
import Bergshamra.Proof.InputOnly
import Bergshamra.Proof.OutsideReaders
import Bergshamra.Proof.Selects
import Bergshamra.Proof.Filter2Fold
import Bergshamra.Proof.SelectsWhere
import Bergshamra.Proof.EnvelopedShortcut
import Bergshamra.Spec.XPath
import Bergshamra.Proof.CompoundCounts
import Bergshamra.Proof.CompoundText
import Bergshamra.Lib.Bytes
import Bergshamra.Dsig.XPathBytes
import Bergshamra.Proof.XPathPanics
import Bergshamra.Proof.HmacFloor
import Bergshamra.Dsig.Sign
import Bergshamra.Enc.Decrypt
import Bergshamra.Proof.IdPlaces
import Bergshamra.Lib.Words
import Bergshamra.Spec.BoolExpr
import Bergshamra.Proof.TopLevel
import Bergshamra.Proof.BoolParse
import Bergshamra.Proof.BoolAtoms
import Bergshamra.Proof.BoolTruth
import Bergshamra.Lib.Nesting
import Bergshamra.Spec.SelectExpr
import Bergshamra.Proof.SelectText
import Bergshamra.Proof.Filter2Exact
import Bergshamra.Enc.Context
import Bergshamra.Enc.Derive
import Bergshamra.Enc.Agreement
import Bergshamra.Enc.Replace
import Bergshamra.Enc.Encrypt
import Bergshamra.Lib.Refill
import Bergshamra.Proof.Latin1
import Bergshamra.Proof.Renumber
import Bergshamra.Proof.ContentKey
import Bergshamra.Proof.Filled
import Bergshamra.Proof.Placed
import Bergshamra.Proof.OpaqueRoundTrip
import Bergshamra.Proof.SetAlgebra
import Bergshamra.Lib.Writer
import Bergshamra.Proof.WrittenTree
import Bergshamra.Lib.Sort
import Bergshamra.Proof.RenderOrder
import Bergshamra.Proof.XmlAttributes
import Bergshamra.Proof.WholeDocument
import Bergshamra.Proof.NoNamespaces
import Bergshamra.Proof.OrderInvariance
import Bergshamra.Proof.NoAttributes
import Bergshamra.Proof.NamespaceContext
import Bergshamra.Proof.UtilizedPrefixes
import Bergshamra.Proof.XmlInheritance
import Bergshamra.Lib.Uri
import Bergshamra.Proof.UriReference
import Bergshamra.Lib.Tagged
import Bergshamra.Proof.WrittenMarkup
import Bergshamra.Spec.FullEvaluation
import Bergshamra.Proof.FullEvaluation
import Bergshamra.Proof.NamespaceNodes
import Bergshamra.Lib.XmlDecl
import Bergshamra.Proof.DeclaredEncoding
import Bergshamra.Proof.DerivationFailure
import Bergshamra.Proof.KdfParameters
import Bergshamra.Proof.DuplicateIds
import Bergshamra.Proof.Revocation
import Bergshamra.Lib.TemplateRule
import Bergshamra.Proof.IdentityShortcut
import Bergshamra.Lib.Spans
import Bergshamra.Lib.XmlSource
import Bergshamra.Proof.Overwrite
import Bergshamra.Proof.TemplateFilling
import Bergshamra.Proof.KeyMarkup
import Bergshamra.Proof.CertificateTemplate
import Bergshamra.Proof.TemplateContent
import Bergshamra.Proof.TableParser
import Bergshamra.Proof.DigestTargets
import Bergshamra.Proof.DigestRun
import Bergshamra.Crypto.SignatureValue
import Bergshamra.Proof.IssuingPath
import Bergshamra.Proof.DsaValues
import Bergshamra.Lib.Der
import Bergshamra.Proof.EcdsaValues
import Bergshamra.Dsig.CertInfo
import Bergshamra.Lib.Decimal
import Bergshamra.Proof.SerialNumbers
import Bergshamra.Keys.Pkcs12Kdf
import Bergshamra.Spec.Pkcs12Kdf
import Bergshamra.Proof.Pkcs12Kdf
import Bergshamra.Dsig.XsltCalls
import Bergshamra.Proof.XsltTermination
import Bergshamra.Proof.Relationships
import Bergshamra.Keys.Loader
import Bergshamra.Proof.TotalDecoders
import Bergshamra.Proof.IssuerSerial
import Bergshamra.Lib.Base64
import Bergshamra.Proof.KeyValues
import Bergshamra.Lib.AlikeBut
import Bergshamra.Proof.OutOfSight
import Bergshamra.Proof.SteadyReference
import Bergshamra.Dsig.SignDocument
import Bergshamra.Proof.SigningSites
import Bergshamra.Proof.SignStages
import Bergshamra.Proof.SignVerify
import Bergshamra.Lib.Splice
import Bergshamra.Proof.Rewriters
import Bergshamra.Proof.InPlace
import Bergshamra.Proof.DocumentRoundTrip
import Bergshamra.Proof.CompleteForm
